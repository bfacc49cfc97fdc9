import EventHub.Library.Turns
import Mathlib.Data.List.Infix

/-! Turns where some come first: who becomes ready stands at the end of the queue, or at its
front. -/

namespace EventHub.Library

abbrev Ranked (T : Type*) := Turn T × Bool

namespace Ranked
variable {T : Type*}

def urgent : Ranked T → List T
  | (.ready t, true) => [t]
  | _ => []

end Ranked

namespace Turns
variable {T : Type*}

inductive RankedStep : Turns T → Ranked T → Turns T → Prop
  | ready {q : Turns T} {t : T} (first : Bool) : t ∉ q.current :: q.queue →
      RankedStep q (.ready t, first)
        { q with queue := if first then t :: q.queue else q.queue ++ [t] }
  | plain {q r : Turns T} {m : Turn T} : (∀ t, m ≠ .ready t) → Step q m r →
      RankedStep q (m, false) r

theorem run_plain {q r : Turns T} {ms : List (Turn T)}
    (run : Run RankedStep q (ms.map fun m => (m, false)) r) : Run Step q ms r := by
  generalize ranks : ms.map (fun m => (m, false)) = ns at run
  induction run generalizing ms with
  | nil =>
    cases List.map_eq_nil_iff.mp ranks
    exact .nil _
  | snoc before last ih =>
    obtain ⟨front, back, rfl, eq, singleton⟩ := List.map_eq_append_iff.mp ranks
    obtain ⟨m, rfl, rfl⟩ := List.map_eq_singleton_iff.mp singleton
    refine .snoc (ih eq) ?_
    cases last with
    | ready first out => exact .ready out
    | plain other step => exact step

variable {q r : Turns T} {m : Ranked T} {ms : List (Ranked T)} {t : T} [DecidableEq T]

def ahead (q : Turns T) (t : T) : List T := q.queue.take (q.queue.idxOf t)

theorem take_idxOf_append {l k : List T} (mem : t ∈ l) :
    (l ++ k).take ((l ++ k).idxOf t) = l.take (l.idxOf t) := by
  rw [List.idxOf_append_of_mem mem, List.take_append_of_le_length List.idxOf_le_length]

theorem take_idxOf_cons {u : T} {l : List T} (ne : u ≠ t) :
    (u :: l).take ((u :: l).idxOf t) = u :: l.take (l.idxOf t) := by
  rw [List.idxOf_cons_ne _ ne, List.take_succ_cons]

theorem RankedStep.ahead (step : RankedStep q m r) (mem : t ∈ q.queue)
    (unserved : t ∉ m.1.served) :
    t ∈ r.queue ∧ m.1.served ++ r.ahead t = m.urgent ++ q.ahead t := by
  cases step with
  | @ready u first out =>
    cases first with
    | false => exact ⟨List.mem_append_left _ mem, take_idxOf_append mem⟩
    | true =>
      have ne : u ≠ t := fun eq => out (eq ▸ List.mem_cons_of_mem _ mem)
      exact ⟨List.mem_cons_of_mem _ mem, take_idxOf_cons ne⟩
  | plain other step =>
    cases step with
    | @ready u out => exact absurd rfl (other u)
    | @switch u rest again busy first =>
      have ne : u ≠ t := fun eq => unserved (by simp [Turn.served, eq])
      rw [first] at mem
      have behind : t ∈ rest := (List.mem_cons.mp mem).resolve_left ne.symm
      refine ⟨List.mem_append_left _ behind, ?_⟩
      rw [Turns.ahead, Turns.ahead, first, take_idxOf_cons ne]
      exact congrArg (u :: ·) (take_idxOf_append behind)
    | idle none =>
      rw [none] at mem
      cases mem
    | resume idle => exact ⟨mem, rfl⟩
    | stay idle => exact ⟨mem, rfl⟩

/-- While one waits, those who were ahead and those who were urgent are served or ahead, each as
often as it was. -/
theorem ranked_run (run : Run RankedStep q ms r) (mem : t ∈ q.queue)
    (unserved : t ∉ ms.flatMap fun m => m.1.served) :
    t ∈ r.queue ∧ ((ms.flatMap fun m => m.1.served) ++ r.ahead t).Perm
      (q.ahead t ++ ms.flatMap Ranked.urgent) := by
  induction run with
  | nil => exact ⟨mem, by simp⟩
  | @snoc mid after ms m before last ih =>
    simp only [List.flatMap_append, List.mem_append, not_or] at unserved
    obtain ⟨waits, who⟩ := ih unserved.1
    obtain ⟨waits', now⟩ := last.ahead waits (by simpa using unserved.2)
    refine ⟨waits', ?_⟩
    simp only [List.flatMap_append, List.flatMap_singleton, List.append_assoc]
    rw [now]
    have moved : ((ms.flatMap fun m => m.1.served) ++ (m.urgent ++ mid.ahead t)).Perm
        ((ms.flatMap fun m => m.1.served) ++ mid.ahead t ++ m.urgent) := by
      rw [List.append_assoc]
      exact List.perm_append_comm.append_left _
    refine moved.trans ((who.append_right _).trans ?_)
    rw [List.append_assoc]

end Turns

end EventHub.Library
