import EventHub.Event.Receptors
import EventHub.Library.Edits

/-! The receptor lists as the pointers in memory form them: every event is the head of a ring
of its receptors, and a receptor that is in no list is linked to itself. -/

namespace EventHub.Event
open Library

/-- `receptor_list_head` of an event, or `list_node` of a receptor. -/
inductive WireNode (E T P : Type) where
  | head (e : E)
  | receptor (r : Receptor E T P)
deriving DecidableEq

variable {E T P : Type}

def wireNodes (f : E → List (Receptor E T P)) (e : E) : List (WireNode E T P) :=
  .head e :: (f e).map .receptor

structure Wires (m : Links (WireNode E T P)) (f : E → List (Receptor E T P)) : Prop where
  rings : Rings m (wireNodes f)
  alone : ∀ r, (∀ e, r ∉ f e) →
    m.next (.receptor r) = .receptor r ∧ m.prev (.receptor r) = .receptor r

theorem receptor_mem_wireNodes {f : E → List (Receptor E T P)} {e : E} {r : Receptor E T P} :
    .receptor r ∈ wireNodes f e ↔ r ∈ f e := by
  simp [wireNodes]

variable [DecidableEq E] [DecidableEq T] [DecidableEq P] {m : Links (WireNode E T P)}
  {f : E → List (Receptor E T P)} {e : E} {r : Receptor E T P}

omit [DecidableEq T] [DecidableEq P] in
theorem wireNodes_update (k : List (Receptor E T P)) :
    Function.update (wireNodes f) e (.head e :: k.map .receptor) =
      wireNodes (Function.update f e k) := by
  funext x
  by_cases eq : x = e
  · subst eq
    simp [wireNodes]
  · simp [wireNodes, eq]

namespace Wires

theorem aloneReceptor (h : Wires m f) (out : ∀ e, r ∉ f e) : m.alone (.receptor r) = m :=
  Links.alone_self (h.alone r out).1 (h.alone r out).2

theorem aloneHead (h : Wires m f) (empty : f e = []) : m.alone (.head e) = m := by
  have ring := h.rings.ring e
  rw [wireNodes, empty] at ring
  obtain ⟨next, prev⟩ := Links.ring_singleton.mp ring
  exact Links.alone_self next prev

theorem add (h : Wires m f) (out : ∀ x, r ∉ f x) :
    Wires (m.addTail (.receptor r) (.head e)) (Function.update f e (f e ++ [r])) where
  rings := by
    have added := h.rings.addTail (i := e) rfl fun x => receptor_mem_wireNodes.not.mpr (out x)
    rw [← wireNodes_update, List.map_append]
    exact added
  alone q outQ := by
    have ne : q ≠ r := by
      rintro rfl
      exact outQ e (by simp)
    have outF : ∀ x, q ∉ f x := by
      intro x mem
      apply outQ x
      by_cases eq : x = e
      · subst eq
        simp [mem]
      · simpa [eq] using mem
    have outRing : .receptor q ∉ .receptor r :: wireNodes f e := by
      simp [wireNodes, ne, outF e]
    obtain ⟨next, prev⟩ := (h.rings.ring e).addTail_agree (.receptor r) (.receptor q) outRing
    rw [next, prev]
    exact h.alone q outF

theorem remove (h : Wires m f) (mem : r ∈ f e) (nodup : (f e).Nodup) :
    Wires (m.delInit (.receptor r)) (Function.update f e ((f e).erase r)) where
  rings := by
    obtain ⟨before, after, -, split, erased⟩ := List.exists_erase_eq mem
    have at_e : wireNodes f e =
        (.head e :: before.map .receptor) ++ .receptor r :: after.map .receptor := by
      simp [wireNodes, split]
    have unlinked := (h.rings.unlink at_e).alone (h.rings.unlink_out at_e)
    rw [erased, ← wireNodes_update, List.map_append]
    exact unlinked
  alone q outQ := by
    by_cases eq : q = r
    · subst eq
      exact Links.delInit_next_self m (.receptor q)
    · have outF : ∀ x, q ∉ f x := by
        intro x memX
        apply outQ x
        by_cases eqE : x = e
        · subst eqE
          rw [Function.update_self, nodup.mem_erase_iff]
          exact ⟨eq, memX⟩
        · simpa [eqE] using memX
      have memRing : .receptor r ∈ wireNodes f e := receptor_mem_wireNodes.mpr mem
      have outRing : .receptor q ∉ wireNodes f e := receptor_mem_wireNodes.not.mpr (outF e)
      obtain ⟨next, prev⟩ := (h.rings.ring e).delInit_agree memRing (.receptor q) outRing
      rw [next, prev]
      exact h.alone q outF

theorem delInit (h : Wires m f) (nodup : (f e).Nodup) (only : ∀ x, r ∈ f x → x = e) :
    Wires (m.delInit (.receptor r)) (Function.update f e ((f e).erase r)) := by
  by_cases mem : r ∈ f e
  · exact h.remove mem nodup
  · have out : ∀ x, r ∉ f x := fun x memX => mem (only x memX ▸ memX)
    obtain ⟨next, prev⟩ := h.alone r out
    rw [Links.delInit_self next prev, List.erase_of_not_mem mem, Function.update_eq_self]
    exact h

theorem clean (h : Wires m f) (nodup : (f e).Nodup) :
    Wires (LinkEdit.applyAll m ((f e).map fun r => .delInit (.receptor r)))
      (Function.update f e []) := by
  generalize eq : f e = k at nodup ⊢
  induction k generalizing m f with
  | nil =>
    have same : Function.update f e [] = f := by rw [← eq, Function.update_eq_self]
    exact same.symm ▸ h
  | cons r k ih =>
    have mem : r ∈ f e := by simp [eq]
    have first := h.remove mem (eq ▸ nodup)
    rw [eq, List.erase_cons_head] at first
    have rest := ih first (Function.update_self ..) (List.nodup_cons.mp nodup).2
    rw [Function.update_idem] at rest
    exact rest

theorem reorder (h : Wires m f) {before after : List (Receptor E T P)}
    (split : f e = before ++ r :: after) :
    Wires (m.move (.head e) (.receptor r))
      (Function.update f e (after ++ (before ++ [r]))) := by
  have at_e : wireNodes f e =
      .head e :: (before.map .receptor ++ .receptor r :: after.map .receptor) := by
    simp [wireNodes, split]
  refine ⟨?_, fun q outQ => ?_⟩
  · have moved := h.rings.moveHead at_e
    rw [← wireNodes_update]
    simpa using moved
  · have outF : ∀ x, q ∉ f x := by
      intro x mem
      apply outQ x
      by_cases eq : x = e
      · subst eq
        rw [split] at mem
        simp only [Function.update_self, List.mem_append, List.mem_cons, List.not_mem_nil,
          or_false] at mem ⊢
        tauto
      · simpa [eq] using mem
    obtain ⟨next, prev⟩ := h.rings.moveHead_agree at_e (.receptor q)
      (receptor_mem_wireNodes.not.mpr (outF e))
    rw [next, prev]
    exact h.alone q outF

end Wires

end EventHub.Event
