import EventHub.Kernel.Timed

/-! A wait with a timeout, from the start of its timer to the return: while the task sleeps the
timer is in the tree with the deadline of the wait, and behind the return nothing of the wait
is linked anywhere. -/

namespace EventHub.Kernel
open Library Event

variable {T O P W C A : Type}

def localReceptors (t : T) : List (Receptor (EhEvent T O) T P) := [.wait t, .timer t]

variable [DecidableEq T] [DecidableEq O] [DecidableEq P] {sys : System T O W C A}
  {s s' : Eh T O P W C A} {w : Wait T P C}

theorem go_unlinks (step : s.go sys = some s')
    (leaving : s.point s.self = .waitLoop w ∨ ∃ ret, s.point s.self = .waitEnd w ret)
    (e : EhEvent T O) :
    (s'.events.receptors e).filter (· ∉ localReceptors s.self) =
      (s.events.receptors e).filter (· ∉ localReceptors s.self) := by
  -- taking out one of the two leaves the others in their places
  have erased : ∀ (f : EhEvent T O → List (Receptor (EhEvent T O) T P)) (x : EhEvent T O),
      ∀ r ∈ (localReceptors s.self : List (Receptor (EhEvent T O) T P)),
      (Function.update f x ((f x).erase r) e).filter (· ∉ localReceptors s.self) =
        (f e).filter (· ∉ localReceptors s.self) := by
    intro f x r mem
    by_cases eq : e = x
    · subst eq
      rw [Function.update_self, ← List.erase_filter, List.erase_of_not_mem]
      simpa using fun _ => mem
    · rw [Function.update_of_ne eq]
  rcases leaving with at_ | ⟨ret, at_⟩
  · rw [Eh.go, at_] at step
    cases step
    rw [loopWait_receptors]
    split
    · exact erased _ _ _ (by simp [localReceptors])
    · rfl
  · rw [Eh.go, at_] at step
    cases step
    exact erased _ _ _ (by simp [localReceptors])

namespace Timed

variable {clock : Clockwork T O} {x y : Timed T O P W C A} {t : T}

omit [DecidableEq O] [DecidableEq P] in
theorem Ok.asleep (h : x.Ok sys clock) (live : x.eh.alive t = true)
    (parked : x.eh.sched.state t = .wait) (waits : (x.eh.point t).waits = some w)
    (timed : w.timeout ≠ ehTimeForever) :
    (x.eh.point t).deadline = some w ∧ (x.eh.timerRunning t = true ↔ 0 ≤ w.timeout) := by
  have deadline : (x.eh.point t).deadline = some w := by
    have filtered : (x.eh.point t).waits.filter Wait.timed = some w :=
      Option.filter_eq_some_iff.mpr ⟨waits, by simpa [Wait.timed] using timed⟩
    rw [← filtered]
    cases at_ : x.eh.point t with
    | waitAdd v =>
      rw [at_] at waits
      cases waits
    | _ => rfl
  refine ⟨deadline, fun runs => (h.timer t).refused runs deadline, fun positive => ?_⟩
  refine ((h.timer t).fired live deadline positive).resolve_right fun trigger => ?_
  -- the timer has not fired: the task would have been woken up
  have told := (h.timer t).told live deadline (by simp [Flags.any, trigger])
  rw [(h.wired.inv.event.task t).waiting live parked] at told
  cases told

end Timed

/-- While a task sleeps in a wait with a timeout, its timer is in the tree with the deadline of
the wait: exactly when the timeout is not below zero, or the wait is that of an epoll, which
does not sleep with such a timeout. -/
theorem ehEventWait_deadline_iff (sys : System T O W C A) (clock : Clockwork T O) (main : T)
    (world : W) (timer : Nat → Timer.EhEventTimer) (x : Timed T O P W C A)
    (reachable : x.Reachable sys clock main world timer) (t : T) (w : Wait T P C)
    (live : x.eh.alive t = true) (parked : x.eh.sched.state t = .wait)
    (waits : (x.eh.point t).waits = some w) (timed : w.timeout ≠ ehTimeForever) :
    (clock.timeoutTimer t ∈ x.timers.nodes ∧
      (x.timers.timer (clock.timeoutTimer t)).expire =
        (x.started t + Timer.toClock w.timeout) % Timer.clockSpan) ↔
    0 ≤ w.timeout ∨ ∃ q n, w.caller = .epoll q n := by
  have ok := reachable.ok
  obtain ⟨deadline, runs⟩ := ok.asleep live parked waits timed
  have tree : clock.timeoutTimer t ∈ x.timers.nodes ↔ x.eh.timerRunning t = true := by
    rw [← ok.agrees.wf.running, ok.agrees.running]
  constructor
  · rintro ⟨mem, -⟩
    exact .inl (runs.mp (tree.mp mem))
  · intro started
    have positive : 0 ≤ w.timeout := by
      rcases started with positive | ⟨q, n, caller⟩
      · exact positive
      · exact ((ok.timer t).epoll live (.inr deadline) caller).le
    have running := runs.mpr positive
    exact ⟨tree.mpr running, ok.agrees.expire running deadline⟩

def evenStacks : Clockwork Nat Unit where
  clocksPerSec := 1000000
  timeoutTimer t := 2 * t
  owner i := if i % 2 = 0 then some (i / 2) else none
  owner_iff {i t} := by
    split
    · rw [Option.some.injEq]
      omega
    · simp only [reduceCtorEq, false_iff]
      omega
  event _ := ()

def Timed.runs (ls : List (TimedLabel Nat Unit Unit Unit Empty)) :
    Option (Timed Nat Unit Unit Unit Unit Empty) :=
  ls.foldlM (Timed.step plain evenStacks) (.init 0 () fun _ => ⟨0, 0, 0, false⟩)

theorem Timed.reachable_get {ls : List (TimedLabel Nat Unit Unit Unit Empty)}
    (h : (Timed.runs ls).isSome = true) :
    ((Timed.runs ls).get h).Reachable plain evenStacks 0 () fun _ => ⟨0, 0, 0, false⟩ :=
  ⟨ls, .of_foldlM_some (Option.some_get h).symm⟩

def mainWaits (timeout : Int) : List (TimedLabel Nat Unit Unit Unit Empty) :=
  (callThen (.wait ⟨.object (), timeout⟩) 3).map fun l => .kernel l 5

theorem mainWaits_runs : (Timed.runs (mainWaits 10)).isSome = true := rfl

theorem ehEventWait_deadline_iff_ten : ∃ x : Timed Nat Unit Unit Unit Unit Empty,
    x.Reachable plain evenStacks 0 () (fun _ => ⟨0, 0, 0, false⟩) ∧
      x.eh.sched.state 0 = .wait ∧ 0 ∈ x.timers.nodes ∧ (x.timers.timer 0).expire = 15 := by
  have reachable := Timed.reachable_get mainWaits_runs
  have deadline := (ehEventWait_deadline_iff plain evenStacks 0 () _ _ reachable 0
    ⟨.object (), 10⟩ rfl rfl rfl (by decide)).mpr (.inl (by decide))
  exact ⟨_, reachable, rfl, deadline⟩

theorem mainWaits_negative_runs : (Timed.runs (mainWaits (-5))).isSome = true := rfl

/-- With the timeout -5 the main task sleeps, and no timer runs. -/
theorem ehEventWait_without_deadline : ∃ x : Timed Nat Unit Unit Unit Unit Empty,
    x.Reachable plain evenStacks 0 () (fun _ => ⟨0, 0, 0, false⟩) ∧
      x.eh.alive 0 = true ∧ x.eh.sched.state 0 = .wait ∧
      (x.eh.point 0).waits = some ⟨.object (), -5⟩ ∧ -5 ≠ ehTimeForever ∧
      evenStacks.timeoutTimer 0 ∉ x.timers.nodes :=
  ⟨_, Timed.reachable_get mainWaits_negative_runs, rfl, rfl, rfl, by decide, by decide⟩

/-- When a wait returns, its receptors are linked in no list and its timer is not in the tree;
and what it takes out on its way leaves the order of all other receptors and timers. -/
theorem ehEventWait_leaves_nothing (sys : System T O W C A) (clock : Clockwork T O) (main : T)
    (world : W) (timer : Nat → Timer.EhEventTimer) (x : Timed T O P W C A)
    (reachable : x.Reachable sys clock main world timer) :
    (∀ w ret, x.eh.point x.eh.self = .returned w ret →
      (∀ e l, x.wired.links.Ring (.head e :: l) → ∀ r ∈ localReceptors x.eh.self,
        .receptor r ∉ l) ∧
      clock.timeoutTimer x.eh.self ∉ x.timers.nodes) ∧
    ∀ now y w, x.step sys clock (.kernel .go now) = some y →
      (x.eh.point x.eh.self = .waitLoop w ∨ ∃ ret, x.eh.point x.eh.self = .waitEnd w ret) →
      (∀ e, ∃ k k' : List (Receptor (EhEvent T O) T P),
        x.wired.links.Ring (.head e :: k.map .receptor) ∧
        y.wired.links.Ring (.head e :: k'.map .receptor) ∧
        k'.filter (· ∉ localReceptors x.eh.self) = k.filter (· ∉ localReceptors x.eh.self)) ∧
      y.timers.nodes.filter (· ≠ clock.timeoutTimer x.eh.self) =
        x.timers.nodes.filter (· ≠ clock.timeoutTimer x.eh.self) := by
  have ok := reachable.ok
  refine ⟨fun w ret at_ => ⟨fun e l ring r mem inRing => ?_, fun mem => ?_⟩,
    fun now y w step leaving => ⟨fun e => ?_, ?_⟩⟩
  · have list := (ok.wired.wires.rings.ring e).unique ring
    rw [← list] at inRing
    obtain ⟨q, linked, eq⟩ := List.mem_map.mp inRing
    cases eq
    rcases List.mem_pair.mp mem with rfl | rfl
    · exact ok.wired.inv.event.not_wait (by rw [at_]; rfl) e linked
    · exact ok.wired.inv.event.not_timer (by rw [at_]; rfl) e linked
  · rw [← ok.agrees.wf.running, ok.agrees.running] at mem
    have timing := ((ok.timer _).running mem).2
    rw [at_] at timing
    cases timing
  · obtain ⟨wired, first, rest⟩ := Option.bind_eq_some_iff.mp step
    obtain ⟨timers, -, rfl⟩ := Option.map_eq_some_iff.mp rest
    obtain ⟨kernel, -, after⟩ := ok.wired.step first
    exact ⟨_, _, ok.wired.wires.rings.ring e, after.wires.rings.ring e,
      go_unlinks kernel leaving e⟩
  · obtain ⟨wired, first, rest⟩ := Option.bind_eq_some_iff.mp step
    obtain ⟨timers, call, rfl⟩ := Option.map_eq_some_iff.mp rest
    rw [Timed.kernelTimers] at call
    rcases leaving with at_ | ⟨ret, at_⟩
    · rw [at_] at call
      cases call
      rfl
    · rw [at_] at call
      obtain ⟨pair, stop, rfl⟩ := Option.map_eq_some_iff.mp call
      dsimp only
      rw [(ok.agrees.wf.stop stop).2.2, List.filter_filter]
      simp only [Bool.and_self]

def mainReturns : List (TimedLabel Nat Unit Unit Unit Empty) :=
  mainWaits 10 ++ .check 1 20 :: .replicate 7 (.kernel .go 20)

theorem mainReturns_runs : (Timed.runs mainReturns).isSome = true := rfl

theorem ehEventWait_leaves_nothing_expired : ∃ x : Timed Nat Unit Unit Unit Unit Empty,
    x.Reachable plain evenStacks 0 () (fun _ => ⟨0, 0, 0, false⟩) ∧
      x.eh.point 0 = .returned ⟨.object (), 10⟩ ehRetTimeout ∧
      evenStacks.timeoutTimer 0 ∉ x.timers.nodes := by
  have reachable := Timed.reachable_get mainReturns_runs
  have nothing := (ehEventWait_leaves_nothing plain evenStacks 0 () _ _ reachable).1
    ⟨.object (), 10⟩ ehRetTimeout rfl
  exact ⟨_, reachable, rfl, nothing.2⟩

end EventHub.Kernel
