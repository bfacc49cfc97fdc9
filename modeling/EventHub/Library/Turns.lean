import EventHub.Library.Transition
import Mathlib.Data.List.Nodup
import Mathlib.Data.List.Basic

/-! Turns taken first in, first out: beside the one whose turn it is, those that are ready
stand in a queue. When nobody is ready the current one may idle, and go on if it can again. -/

namespace EventHub.Library

structure Turns (T : Type*) where
  current : T
  queue : List T
  idle : Bool

inductive Turn (T : Type*) where
  | ready (t : T)
  /-- From `old` to the first of the queue, `old` being ready `again` or not. -/
  | switch (old t : T) (again : Bool)
  | idle
  /-- The current one, which idles, goes on. -/
  | resume (t : T)
  /-- The current one does not idle any more, and does not go on. -/
  | stay
deriving DecidableEq

namespace Turn
variable {T : Type*}

def readied : Turn T → List T
  | ready t => [t]
  | switch old _ again => if again then [old] else []
  | idle | resume _ | stay => []

/-- Who is switched to. -/
def served : Turn T → List T
  | switch _ t _ => [t]
  | ready _ | idle | resume _ | stay => []

def begun : Turn T → List T
  | switch _ t _ | resume t => [t]
  | ready _ | idle | stay => []

end Turn

namespace Turns
variable {T : Type*}

inductive Step : Turns T → Turn T → Turns T → Prop
  | ready {q : Turns T} {t : T} : t ∉ q.current :: q.queue →
      Step q (.ready t) { q with queue := q.queue ++ [t] }
  | switch {q : Turns T} {t : T} {rest : List T} (again : Bool) :
      q.idle = false → q.queue = t :: rest →
      Step q (.switch q.current t again)
        ⟨t, rest ++ (if again then [q.current] else []), false⟩
  | idle {q : Turns T} : q.queue = [] → Step q .idle { q with idle := true }
  | resume {q : Turns T} : q.idle = true →
      Step q (.resume q.current) { q with idle := false }
  | stay {q : Turns T} : q.idle = true → Step q .stay { q with idle := false }

def Distinct (q : Turns T) : Prop := (q.current :: q.queue).Nodup

/-- Who has run at the end of these turns, whoever runs at their start included. -/
def ran (q : Turns T) (ms : List (Turn T)) : List T :=
  (if q.idle then [] else [q.current]) ++ ms.flatMap Turn.begun

variable {q r : Turns T} {m : Turn T} {ms : List (Turn T)} {t : T}

theorem Distinct.step (h : q.Distinct) (step : Step q m r) : r.Distinct := by
  cases step with
  | @ready t out =>
    have swap : (q.current :: (q.queue ++ [t])).Perm (t :: q.current :: q.queue) :=
      List.perm_append_singleton _ (q.current :: q.queue)
    exact swap.nodup_iff.mpr (List.nodup_cons.mpr ⟨out, h⟩)
  | @switch u rest again busy first =>
    rw [Distinct, first] at h
    cases again with
    | false => simpa [Distinct] using (List.nodup_cons.mp h).2
    | true =>
      have swap : (u :: (rest ++ [q.current])).Perm (q.current :: u :: rest) :=
        List.perm_append_singleton _ (u :: rest)
      exact swap.nodup_iff.mpr h
  | idle none => exact h
  | resume idle => exact h
  | stay idle => exact h

theorem Distinct.run (h : q.Distinct) (run : Run Step q ms r) : r.Distinct :=
  run.invariant (fun h step => h.step step) h

theorem Step.queue (step : Step q m r) : q.queue ++ m.readied = m.served ++ r.queue := by
  cases step with
  | ready out => rfl
  | switch again busy first => simp [Turn.readied, Turn.served, first]
  | idle none => simp [Turn.readied, Turn.served]
  | resume idle => simp [Turn.readied, Turn.served]
  | stay idle => simp [Turn.readied, Turn.served]

theorem run_queue (run : Run Step q ms r) :
    q.queue ++ ms.flatMap Turn.readied = ms.flatMap Turn.served ++ r.queue := by
  induction run with
  | nil => simp
  | snoc _ last ih =>
    rw [List.flatMap_append, List.flatMap_append, ← List.append_assoc, ih, List.append_assoc,
      List.append_assoc]
    simpa using last.queue

theorem mem_queue (run : Run Step q ms r) (mem : t ∈ q.queue)
    (unserved : t ∉ ms.flatMap Turn.served) : t ∈ r.queue := by
  have both : t ∈ ms.flatMap Turn.served ++ r.queue := by
    rw [← run_queue run]
    exact List.mem_append_left _ mem
  exact (List.mem_append.mp both).resolve_left unserved

theorem served_front (run : Run Step q ms r) (mem : t ∈ q.queue)
    (unserved : t ∉ ms.flatMap Turn.served) : ms.flatMap Turn.served <+: q.queue := by
  rcases List.append_eq_append_iff.mp (run_queue run) with ⟨more, eq, -⟩ | ⟨rest, eq, -⟩
  · rw [eq] at unserved
    exact absurd (List.mem_append_left _ mem) unserved
  · exact ⟨rest, eq.symm⟩

theorem ran_sublist (run : Run Step q ms r) (mem : t ∈ q.queue)
    (unserved : t ∉ ms.flatMap Turn.served) :
    (q.ran ms).Sublist (q.current :: ms.flatMap Turn.served) ∧
      (r.idle = true → q.ran ms = [] ∧ r.current = q.current) := by
  induction run with
  | nil =>
    rw [ran]
    cases q.idle <;> simp
  | @snoc mid after ms m before last ih =>
    have unserved' : t ∉ ms.flatMap Turn.served := fun mem => unserved (by
      rw [List.flatMap_append]
      exact List.mem_append_left _ mem)
    obtain ⟨sub, idle⟩ := ih unserved'
    have waits := mem_queue before mem unserved'
    have ran_snoc : q.ran (ms ++ [m]) = q.ran ms ++ m.begun := by
      simp [ran, List.flatMap_append]
    have served_snoc : (ms ++ [m]).flatMap Turn.served = ms.flatMap Turn.served ++ m.served := by
      simp [List.flatMap_append]
    rw [ran_snoc, served_snoc]
    cases last with
    | ready out => simpa [Turn.begun, Turn.served] using ⟨sub, idle⟩
    | switch again busy first =>
      refine ⟨?_, fun eq => by cases eq⟩
      exact sub.append (.refl _)
    | idle none =>
      rw [none] at waits
      cases waits
    | resume idles =>
      obtain ⟨nothing, same⟩ := idle idles
      refine ⟨?_, fun eq => by cases eq⟩
      simp [nothing, same, Turn.begun, Turn.served]
    | stay idles =>
      refine ⟨?_, fun eq => by cases eq⟩
      simpa [Turn.begun, Turn.served] using sub

/-- Between the moment when somebody is ready and the turn, everybody else runs once at
most. -/
theorem ran_nodup (h : q.Distinct) (run : Run Step q ms r) (mem : t ∈ q.queue)
    (unserved : t ∉ ms.flatMap Turn.served) : (q.ran ms).Nodup := by
  have front := (served_front run mem unserved).sublist
  exact h.sublist ((ran_sublist run mem unserved).1.trans (front.cons_cons _))

end Turns

end EventHub.Library
