import EventHub.Kernel.Runs

/-! The lists of the scheduler in every reachable state, and the safety of wake-ups. -/

namespace EventHub.Kernel
open Library Event

variable {T O P W C A : Type}

/-- The task is linked in the list with this head, or in the ring through this task. -/
def Linked (links : Links (Node T)) (head : Node T) (t : T) : Prop :=
  ∃ l, links.Ring (head :: l) ∧ .task t ∈ head :: l

theorem Holds.linked {s : Sched T} {alive : T → Prop} {l : Home → List T}
    (h : Holds s alive l) (i : Home) (t : T) :
    Linked s.links (s.head i) t ↔ (i = .ready ∧ t = s.currentTask) ∨ t ∈ l i := by
  rw [← task_mem_nodes]
  constructor
  · rintro ⟨k, ring, mem⟩
    rwa [Sched.nodes, (h.rings.ring i).unique ring]
  · exact fun mem => ⟨_, h.rings.ring i, mem⟩

theorem Point.admits_waits {p : Point T P C A} {b : Bool} {w : Wait T P C} {st : TaskState}
    (waits : p.waits = some w ∨ p = .waitAdd w) (h : p.admits b st) :
    st = .wait ∨ st = .ready ∨ st = .runing := by
  rcases waits with waits | rfl
  · have after : st = .wait ∨ st = .ready → st = .wait ∨ st = .ready ∨ st = .runing := by
      rintro (h | h)
      · exact .inl h
      · exact .inr (.inl h)
    cases p with
    | waitLoop v => exact .inr (.inr h)
    | next k | nextLoop k | nextCheck k =>
      cases k with
      | wait v => exact after h
      | _ => cases waits
    | poll pp idle k =>
      cases k with
      | wait v => exact after h
      | _ => cases waits
    | resumed k =>
      cases k with
      | wait v =>
        cases b
        · exact after h
        · exact .inr (.inr h.1)
      | _ => cases waits
    | _ => cases waits
  · exact .inr (.inr h)

variable [DecidableEq T] [DecidableEq O] [DecidableEq P]

/-- Every allocated task is in exactly one of the four lists, that of its state; the task that
runs is in the ring, whatever its state. -/
theorem ehTask_lists (sys : System T O W C A) (main : T) (world : W) (s : Eh T O P W C A)
    (reachable : s.Reachable sys main world) :
    Linked s.sched.links (s.sched.head .ready) s.self ∧
    ∀ t, s.alive t = true →
      (∃! i, Linked s.sched.links (s.sched.head i) t) ∧
      (t ≠ s.self →
        (Linked s.sched.links (s.sched.head .ready) t ↔ s.sched.state t = .ready) ∧
        (Linked s.sched.links (s.sched.head .wait) t ↔ s.sched.state t = .wait) ∧
        (Linked s.sched.links (s.sched.head .finish) t ∨
          Linked s.sched.links (s.sched.head .autoDestruct) t ↔ s.sched.state t = .finish) ∧
        (Linked s.sched.links (s.sched.head .autoDestruct) t ↔
          s.sched.state t = .finish ∧ (s.sched.task t).isAutoDestruct = true)) := by
  obtain ⟨l, holds, -⟩ := reachable.invariant.sched.lists
  refine ⟨(holds.linked .ready s.self).mpr (.inl ⟨rfl, rfl⟩), fun t live => ⟨?_, fun ne => ?_⟩⟩
  · by_cases eq : t = s.self
    · subst eq
      have out : ∀ i, s.self ∉ l i := fun i mem => ((holds.mem i _).mp mem).2.1 rfl
      refine ⟨.ready, (holds.linked _ _).mpr (.inl ⟨rfl, rfl⟩), fun j linked => ?_⟩
      rcases (holds.linked j _).mp linked with ⟨home, -⟩ | mem
      · exact home
      · exact absurd mem (out j)
    · obtain ⟨i, home⟩ : ∃ i, (s.sched.task t).home = some i := by
        have parked := holds.parked t live eq
        cases st : s.sched.state t with
        | ready => exact ⟨_, home_ready.mpr st⟩
        | runing => exact absurd st parked
        | wait => exact ⟨_, home_wait.mpr st⟩
        | finish =>
          cases auto : (s.sched.task t).isAutoDestruct
          · exact ⟨_, home_finish.mpr ⟨st, auto⟩⟩
          · exact ⟨_, home_autoDestruct.mpr ⟨st, auto⟩⟩
      have mem : t ∈ l i := (holds.mem i t).mpr ⟨live, eq, home⟩
      refine ⟨i, (holds.linked _ _).mpr (.inr mem), fun j linked => ?_⟩
      rcases (holds.linked j _).mp linked with ⟨-, cur⟩ | memJ
      · exact absurd cur eq
      · exact home_unique holds.rings memJ mem
  · have linked : ∀ i, Linked s.sched.links (s.sched.head i) t ↔
        (s.sched.task t).home = some i := by
      intro i
      rw [holds.linked, holds.mem]
      have ne' : t ≠ s.sched.currentTask := ne
      simp [live, ne']
    rw [linked, linked, linked, linked, home_ready, home_wait, home_finish, home_autoDestruct]
    refine ⟨.rfl, .rfl, ?_, .rfl⟩
    cases (s.sched.task t).isAutoDestruct <;> simp

def plain : System Nat Unit Unit Unit Empty where
  dispatchCntPerPoll := 4
  event _ := ()
  condition _ := none
  finish _ _ _ world := world
  act a := nomatch a
  fromTask a := nomatch a
  fromInterrupt a := nomatch a

def callThen (l : Label Nat Unit Unit Unit Empty) (n : Nat) :
    List (Label Nat Unit Unit Unit Empty) :=
  l :: .replicate n .go

def onePerList : List (Label Nat Unit Unit Unit Empty) :=
  [callThen (.create 1 false false) 0, callThen (.create 2 false true) 0, callThen .yield 4,
    callThen .ret 5, callThen (.wait ⟨.object (), ehTimeForever⟩) 6].flatten

theorem onePerList_runs : (Eh.runs plain 0 () onePerList).isSome = true := rfl

theorem ehTask_lists_three : ∃ s : Eh Nat Unit Unit Unit Unit Empty,
    s.Reachable plain 0 () ∧ Linked s.sched.links .taskFinishListHead 1 ∧
      Linked s.sched.links .taskWaitListHead 2 := by
  have reachable := Eh.reachable_get onePerList_runs
  have lists := (ehTask_lists plain 0 () _ reachable).2
  refine ⟨_, reachable, ?_, ?_⟩
  · have one := ((lists 1 rfl).2 (by decide)).2.2
    refine (one.1.mpr rfl).resolve_right fun auto => ?_
    cases (one.2.mp auto).2
  · exact ((lists 2 rfl).2 (by decide)).2.1.mpr rfl

/-- A task that is inside a wait and sleeps has not been reached by a notification,
a clean or its timer since it last looked. One that has been reached is ready or runs, and is
in the ring. -/
theorem ehEventWait_no_lost_wakeup (sys : System T O W C A) (main : T) (world : W)
    (s : Eh T O P W C A) (reachable : s.Reachable sys main world) (t : T)
    (live : s.alive t = true) (w : Wait T P C)
    (waits : (s.point t).waits = some w ∨ s.point t = .waitAdd w) :
    (s.sched.state t = .wait → s.reached t = false) ∧
    (s.reached t = true →
      (s.sched.state t = .ready ∨ s.sched.state t = .runing) ∧
      Linked s.sched.links (s.sched.head .ready) t) := by
  have inv := reachable.invariant
  have quiet := (inv.event.task t).waiting live
  refine ⟨quiet, fun reached => ?_⟩
  have awake : s.sched.state t ≠ .wait := fun sleeps => by
    rw [quiet sleeps] at reached
    cases reached
  obtain ⟨inRing, lists⟩ := ehTask_lists sys main world s reachable
  by_cases eq : t = s.self
  · subst eq
    have states := Point.admits_waits waits inv.sched.selfState
    exact ⟨states.resolve_left awake, inRing⟩
  · have states := (Point.admits_waits waits (inv.sched.state live eq)).resolve_left awake
    obtain ⟨l, holds, -⟩ := inv.sched.lists
    have ready := states.resolve_right (holds.parked t live eq)
    exact ⟨states, ((lists t live).2 eq).1.mpr ready⟩

/-- Task 1 waits; an interrupt notifies the event when task 1 is on the wait list. -/
def wokenOnList : List (Label Nat Unit Unit Unit Empty) :=
  [callThen (.create 1 false false) 0, callThen .yield 4,
    callThen (.wait ⟨.object (), ehTimeForever⟩) 6,
    callThen (.signal (.notify (.object ()))) 0].flatten

theorem wokenOnList_runs : (Eh.runs plain 0 () wokenOnList).isSome = true := rfl

theorem ehEventWait_no_lost_wakeup_one : ∃ s : Eh Nat Unit Unit Unit Unit Empty,
    s.Reachable plain 0 () ∧ s.reached 1 = true ∧ Linked s.sched.links (.task 0) 1 := by
  have reachable := Eh.reachable_get wokenOnList_runs
  have safe := ehEventWait_no_lost_wakeup plain 0 () _ reachable 1 rfl
    ⟨.object (), ehTimeForever⟩ (.inl rfl)
  exact ⟨_, reachable, rfl, (safe.2 rfl).2⟩

end EventHub.Kernel
