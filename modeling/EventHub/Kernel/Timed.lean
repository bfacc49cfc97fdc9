import EventHub.Kernel.Cleaned
import EventHub.Kernel.Timeouts
import EventHub.Timer.Runs

/-! The system with the tree of the timers. A wait with a timeout has its timer there, beside
the timers of the program, and `eh_timer_check` notifies the events of those that are due. -/

namespace EventHub.Kernel
open Library Event

/-- The timers of the program and of the waits, by their addresses. `timeoutTimer` is on the
stack of the task, in the frame of the wait it is in. -/
structure Clockwork (T O : Type) where
  clocksPerSec : Nat
  timeoutTimer : T → Nat
  /-- The task of a timer that is a `timeoutTimer`. -/
  owner : Nat → Option T
  owner_iff : ∀ {i t}, owner i = some t ↔ timeoutTimer t = i
  /-- `eh_timer_to_event`, for a timer of the program. -/
  event : Nat → O

inductive TimedLabel (T O P C A : Type) where
  | kernel (l : Label T O P C A) (now : Nat)
  | check (fuel now : Nat)
  | timer (op : Timer.Op) (now : Nat)

namespace Clockwork
variable {T O P C A : Type}

def due (clock : Clockwork T O) (i : Nat) : Label T O P C A :=
  match clock.owner i with
  | some t => .expire t
  | none => .signal (.notify (.object (clock.event i)))

/-- The calls of `eh_timer.c` that a program makes; `eh_timer_check` is left to `eh_poll`. -/
def admits (clock : Clockwork T O) : Timer.Op → Bool
  | .check _ => false
  | op => op.timer.all fun i => (clock.owner i).isNone

end Clockwork

structure Timed (T O P W C A : Type) where
  wired : Wired T O P W C A
  timers : Timer.Timers
  -- History: what the clock read when the timer of the wait was started.
  started : T → Nat

namespace Timed
variable {T O P W C A : Type}

abbrev eh (x : Timed T O P W C A) : Eh T O P W C A := x.wired.eh

section Code
variable [DecidableEq T]

def goTimers (clock : Clockwork T O) (x : Timed T O P W C A) (now : Nat) :
    Point T P C A → Option Timer.Timers
  | .waitTimer w =>
    let timer := clock.timeoutTimer x.eh.self
    ((x.timers.setTimer timer ⟨0, w.timeout, 0, false⟩).ehTimerStart timer now).map Prod.fst
  | .waitEnd _ _ => (x.timers.ehTimerStop (clock.timeoutTimer x.eh.self)).map Prod.fst
  | _ => some x.timers

def kernelTimers (clock : Clockwork T O) (x : Timed T O P W C A) (now : Nat) :
    Label T O P C A → Option Timer.Timers
  | .go => x.goTimers clock now (x.eh.point x.eh.self)
  | .expire _ => none
  | _ => some x.timers

def goStarted (x : Timed T O P W C A) (now : Nat) : Label T O P C A → T → Nat
  | .go =>
    match x.eh.point x.eh.self with
    | .waitTimer _ => Function.update x.started x.eh.self now
    | _ => x.started
  | _ => x.started

variable [DecidableEq O] [DecidableEq P]

def step (sys : System T O W C A) (clock : Clockwork T O) (x : Timed T O P W C A) :
    TimedLabel T O P C A → Option (Timed T O P W C A)
  | .kernel l now =>
    (x.wired.step sys l).bind fun wired =>
      (x.kernelTimers clock now l).map fun timers => ⟨wired, timers, x.goStarted now l⟩
  | .check fuel now =>
    match x.timers.ehTimerCheck fuel now with
    | .ok (timers, notified) =>
      ((notified.map clock.due).foldlM (Wired.step sys) x.wired).map fun wired =>
        ⟨wired, timers, x.started⟩
    | .error _ => none
  | .timer op now =>
    if clock.admits op then
      match Timer.exec clock.clocksPerSec x.timers now op with
      | .ok timers => some { x with timers := timers }
      | .error _ => none
    else none

def init (main : T) (world : W) (timer : Nat → Timer.EhEventTimer) : Timed T O P W C A :=
  ⟨.init main world, .initial timer, fun _ => 0⟩

def Reachable (sys : System T O W C A) (clock : Clockwork T O) (main : T) (world : W)
    (timer : Nat → Timer.EhEventTimer) (x : Timed T O P W C A) : Prop :=
  ∃ ls, Run (fun x l y => step sys clock x l = some y) (init main world timer) ls x

end Code

/-- The tree holds the timers of the waits as the kernel has them, each with its deadline. -/
structure Agrees (clock : Clockwork T O) (x : Timed T O P W C A) : Prop where
  wf : x.timers.Wf
  running : ∀ t, (x.timers.timer (clock.timeoutTimer t)).running = x.eh.timerRunning t
  once : ∀ t, x.eh.timerRunning t = true →
    (x.timers.timer (clock.timeoutTimer t)).autoCirculation = false
  expire : ∀ {t w}, x.eh.timerRunning t = true → (x.eh.point t).deadline = some w →
    (x.timers.timer (clock.timeoutTimer t)).expire =
      (x.started t + Timer.toClock w.timeout) % Timer.clockSpan

structure Ok [DecidableEq T] (sys : System T O W C A) (clock : Clockwork T O)
    (x : Timed T O P W C A) : Prop where
  wired : x.wired.Ok sys
  timer : ∀ t, TimerOk x.eh t
  agrees : x.Agrees clock

variable {sys : System T O W C A} {clock : Clockwork T O} {x y : Timed T O P W C A}

theorem Agrees.kept (h : x.Agrees clock) (wf : y.timers.Wf)
    (timer : ∀ t, y.timers.timer (clock.timeoutTimer t) = x.timers.timer (clock.timeoutTimer t))
    (running : ∀ t, y.eh.timerRunning t = x.eh.timerRunning t) (started : y.started = x.started)
    (deadline : ∀ t w, x.eh.timerRunning t = true → (y.eh.point t).deadline = some w →
      (x.eh.point t).deadline = some w) : y.Agrees clock where
  wf := wf
  running t := by
    rw [timer, running]
    exact h.running t
  once t runs := by
    rw [running] at runs
    rw [timer]
    exact h.once t runs
  expire {t w} runs eq := by
    rw [running] at runs
    rw [timer, started]
    exact h.expire runs (deadline t w runs eq)

theorem timeoutTimer_ne (clock : Clockwork T O) {t u : T} (ne : t ≠ u) :
    clock.timeoutTimer t ≠ clock.timeoutTimer u := fun eq => by
  have first := clock.owner_iff.mpr eq
  rw [clock.owner_iff.mpr rfl] at first
  cases first
  exact ne rfl

variable [DecidableEq T] [DecidableEq O] [DecidableEq P]

namespace Ok

theorem startTimer (h : x.Ok sys clock) {w : Wait T P C} {now : Nat} {ret : Int}
    {wired : Wired T O P W C A} {timers : Timer.Timers}
    (at_ : x.eh.point x.eh.self = .waitTimer w) (step : wired.eh = x.eh.startTimer w)
    (start : (x.timers.setTimer (clock.timeoutTimer x.eh.self)
      ⟨0, w.timeout, 0, false⟩).ehTimerStart (clock.timeoutTimer x.eh.self) now =
        some (timers, ret)) :
    (⟨wired, timers, Function.update x.started x.eh.self now⟩ : Timed T O P W C A).Agrees
      clock := by
  have idle : x.eh.timerRunning x.eh.self = false := by
    by_contra runs
    have timing := ((h.timer x.eh.self).running (Bool.not_eq_false _ ▸ runs)).2
    rw [at_] at timing
    cases timing
  have kept : (⟨0, w.timeout, 0, false⟩ : Timer.EhEventTimer).running =
      (x.timers.timer (clock.timeoutTimer x.eh.self)).running :=
    ((h.agrees.running _).trans idle).symm
  obtain ⟨wf, timer⟩ := (h.agrees.wf.setTimer kept).start start
  have own : timers.timer (clock.timeoutTimer x.eh.self) =
      if 0 ≤ w.timeout
        then ⟨(now + Timer.toClock w.timeout) % Timer.clockSpan, w.timeout, 0, true⟩
        else ⟨0, w.timeout, 0, false⟩ := by
    rw [timer]
    by_cases positive : 0 ≤ w.timeout <;> simp [Timer.Timers.setTimer, Timer.Timers.armed, positive]
  have other : ∀ t, t ≠ x.eh.self → timers.timer (clock.timeoutTimer t) =
      x.timers.timer (clock.timeoutTimer t) := by
    intro t ne
    have apart := timeoutTimer_ne clock ne
    rw [timer]
    split <;> simp [Timer.Timers.setTimer, Timer.Timers.armed, apart]
  have running : ∀ t, wired.eh.timerRunning t =
      if t = x.eh.self then decide (0 ≤ w.timeout) else x.eh.timerRunning t := by
    intro t
    rw [step]
    by_cases eq : t = x.eh.self <;> simp [Eh.startTimer, Eh.setPoint, eq]
  refine ⟨wf, fun t => ?_, fun t runs => ?_, fun {t v} runs eq => ?_⟩
  · rw [running]
    split
    · next eq =>
      rw [eq, own]
      split <;> simp [*]
    · next ne => rw [other t ne, h.agrees.running]
  · by_cases eq : t = x.eh.self
    · rw [eq, own]
      split <;> simp [Timer.EhEventTimer.autoCirculation]
    · rw [running, if_neg eq] at runs
      rw [other t eq]
      exact h.agrees.once t runs
  · by_cases self : t = x.eh.self
    · subst self
      rw [running, if_pos rfl] at runs
      have same := (startTimer_timing h.wired.inv at_).2
      rw [← step] at same
      cases same.symm.trans eq
      rw [own, if_pos (of_decide_eq_true runs)]
      dsimp only
      rw [Function.update_self]
    · rw [running, if_neg self] at runs
      dsimp only
      rw [other t self, Function.update_of_ne self]
      refine h.agrees.expire runs ?_
      have point : wired.eh.point t = x.eh.point t := by
        rw [step]
        exact Function.update_of_ne self ..
      rwa [← point]

theorem endWait (h : x.Ok sys clock) {w : Wait T P C} {ret ret' : Int}
    {wired : Wired T O P W C A} {timers : Timer.Timers} (step : wired.eh = x.eh.endWait w ret)
    (stop : x.timers.ehTimerStop (clock.timeoutTimer x.eh.self) = some (timers, ret')) :
    (⟨wired, timers, x.started⟩ : Timed T O P W C A).Agrees clock := by
  obtain ⟨wf, timer, -⟩ := h.agrees.wf.stop stop
  have other : ∀ t, t ≠ x.eh.self → timers.timer (clock.timeoutTimer t) =
      x.timers.timer (clock.timeoutTimer t) := fun t ne => by
    rw [timer, Function.update_of_ne (timeoutTimer_ne clock ne)]
  have running : ∀ t, wired.eh.timerRunning t =
      if t = x.eh.self then false else x.eh.timerRunning t := by
    intro t
    rw [step]
    by_cases eq : t = x.eh.self <;> simp [Eh.endWait, Eh.setPoint, eq]
  have still : ∀ t, wired.eh.timerRunning t = true → t ≠ x.eh.self ∧
      x.eh.timerRunning t = true := by
    intro t runs
    rw [running] at runs
    split at runs
    · cases runs
    · exact ⟨‹_›, runs⟩
  refine ⟨wf, fun t => ?_, fun t runs => ?_, fun {t v} runs eq => ?_⟩
  · rw [running]
    split
    · next eq => rw [eq, timer, Function.update_self]
    · next ne => rw [other t ne, h.agrees.running]
  · obtain ⟨ne, runs⟩ := still t runs
    rw [other t ne]
    exact h.agrees.once t runs
  · obtain ⟨ne, runs⟩ := still t runs
    rw [other t ne]
    refine h.agrees.expire runs ?_
    have point : wired.eh.point t = x.eh.point t := by
      rw [step]
      exact Function.update_of_ne ne ..
    rwa [← point]

theorem runs (h : x.Ok sys clock) {l : Label T O P C A} {wired : Wired T O P W C A}
    (step : x.eh.step sys l = some wired.eh) (early : ∀ t, l ≠ .expire t)
    (away : l = .go → ∀ w, x.eh.point x.eh.self ≠ .waitTimer w ∧
      ∀ ret, x.eh.point x.eh.self ≠ .waitEnd w ret) :
    (⟨wired, x.timers, x.started⟩ : Timed T O P W C A).Agrees clock := by
  have same : ∀ t, _ := fun t => (h.timer t).step_running h.wired.inv h.wired.timers step
    (early t) fun go _ => away go
  exact h.agrees.kept h.agrees.wf (fun _ => rfl) (fun t => (same t).1) rfl
    fun t w runs => (same t).2 runs w

theorem kernel (h : x.Ok sys clock) {l : Label T O P C A} {now : Nat}
    {wired : Wired T O P W C A} {timers : Timer.Timers}
    (step : x.eh.step sys l = some wired.eh) (call : x.kernelTimers clock now l = some timers) :
    (⟨wired, timers, x.goStarted now l⟩ : Timed T O P W C A).Agrees clock := by
  cases l with
  | go =>
    rw [kernelTimers] at call
    rw [goStarted]
    cases at_ : x.eh.point x.eh.self with
    | waitTimer w =>
      rw [at_] at call
      obtain ⟨pair, start, rfl⟩ := Option.map_eq_some_iff.mp call
      rw [Eh.step, Eh.go, at_] at step
      exact h.startTimer at_ (Option.some.inj step).symm start
    | waitEnd w ret =>
      rw [at_] at call
      obtain ⟨pair, stop, rfl⟩ := Option.map_eq_some_iff.mp call
      rw [Eh.step, Eh.go, at_] at step
      exact h.endWait (Option.some.inj step).symm stop
    | _ =>
      rw [at_] at call
      cases call
      exact h.runs step (by simp) (by simp [at_])
  | expire t => cases call
  | _ =>
    cases call
    exact h.runs step (by simp) (by simp)

/-- One timer that is due: its event is notified, and it is started again or not. -/
theorem fire (h : x.Ok sys clock) {i : Nat} {rest : List Nat} {wired : Wired T O P W C A}
    {timers : Timer.Timers} (front : x.timers.nodes = i :: rest)
    (step : x.wired.step sys (clock.due i) = some wired)
    (body : x.timers.checkBody i = some timers) :
    (⟨wired, timers, x.started⟩ : Timed T O P W C A).Ok sys clock := by
  obtain ⟨at_, -, ok⟩ := h.wired.step step
  obtain ⟨s₁, body₁, it⟩ := Timer.Timers.checkBody_ok h.agrees.wf front
  cases body.symm.trans body₁
  refine ⟨ok, fun t => (h.timer t).step h.wired.inv h.wired.timers at_, ?_⟩
  cases owner : clock.owner i with
  | none =>
    have label : clock.due i = (.signal (.notify (.object (clock.event i))) : Label T O P C A) := by
      rw [Clockwork.due, owner]
    rw [label] at at_
    have other : ∀ t, clock.timeoutTimer t ≠ i := fun t eq => by
      rw [clock.owner_iff.mpr eq] at owner
      cases owner
    have kernel := h.runs at_ (by simp) (by simp)
    exact kernel.kept it.wf (fun t => it.other _ (other t)) (fun _ => rfl) rfl
      fun _ _ _ eq => eq
  | some u =>
    have label : clock.due i = (.expire u : Label T O P C A) := by
      rw [Clockwork.due, owner]
    rw [label] at at_
    cases clock.owner_iff.mp owner
    have runs : x.eh.timerRunning u = true := by
      rw [← h.agrees.running]
      exact (h.agrees.wf.running _).mpr (by simp [front])
    obtain ⟨s₂, body₂, -, -, timer, -⟩ :=
      Timer.Timers.checkBody_once h.agrees.wf front (h.agrees.once u runs)
    cases body.symm.trans body₂
    have stopped : wired.eh.timerRunning u = false := by
      rw [← Option.some.inj at_, Eh.expire, if_pos runs]
      simp [Eh.signal, Eh.reach]
    have own : (timers.timer (clock.timeoutTimer u)).running = false := by
      rw [timer, Function.update_self]
    have other : ∀ t, t ≠ u → timers.timer (clock.timeoutTimer t) =
        x.timers.timer (clock.timeoutTimer t) := fun t ne => it.other _ (timeoutTimer_ne clock ne)
    have same : ∀ t, t ≠ u → _ := fun t ne => (h.timer t).step_running h.wired.inv h.wired.timers
      at_ (by simpa using Ne.symm ne) fun go => by cases go
    have still : ∀ t, wired.eh.timerRunning t = true → t ≠ u ∧ x.eh.timerRunning t = true := by
      intro t runs
      have ne : t ≠ u := fun eq => by
        rw [eq, stopped] at runs
        cases runs
      exact ⟨ne, (same t ne).1.symm.trans runs⟩
    refine ⟨it.wf, fun t => ?_, fun t runs => ?_, fun {t v} runs eq => ?_⟩
    · by_cases eq : t = u
      · rw [eq, own, stopped]
      · rw [other t eq, (same t eq).1]
        exact h.agrees.running t
    · obtain ⟨ne, runs⟩ := still t runs
      rw [other t ne]
      exact h.agrees.once t runs
    · obtain ⟨ne, runs⟩ := still t runs
      rw [other t ne]
      exact h.agrees.expire runs ((same t ne).2 runs v eq)

theorem drain {fuel : Nat} {notified : List Nat} {wired wired' : Wired T O P W C A}
    {timers timers' : Timer.Timers} {started : T → Nat}
    (h : (⟨wired, timers, started⟩ : Timed T O P W C A).Ok sys clock)
    (run : Timer.Timers.drain fuel timers = .ok (timers', notified))
    (steps : (notified.map clock.due).foldlM (Wired.step sys) wired = some wired') :
    (⟨wired', timers', started⟩ : Timed T O P W C A).Ok sys clock := by
  induction fuel generalizing wired timers notified with
  | zero =>
    rw [Timer.Timers.drain] at run
    split at run
    · cases run
      cases steps
      exact h
    · cases run
  | succ fuel ih =>
    rw [Timer.Timers.drain] at run
    split at run
    · cases run
      cases steps
      exact h
    · next i due =>
      obtain ⟨rest, front, -⟩ := Timer.Timers.front_of_due h.agrees.wf due
      obtain ⟨timers₁, body, -⟩ := Timer.Timers.checkBody_ok h.agrees.wf front
      simp only [body] at run
      cases more : Timer.Timers.drain fuel timers₁ with
      | error e =>
        rw [more] at run
        cases run
      | ok result =>
        rw [more] at run
        cases run
        rw [List.map_cons, List.foldlM_cons] at steps
        obtain ⟨wired₁, step, steps⟩ := Option.bind_eq_some_iff.mp steps
        exact ih (h.fire front step body) more steps

theorem step {l : TimedLabel T O P C A} (h : x.Ok sys clock)
    (step : x.step sys clock l = some y) : y.Ok sys clock := by
  cases l with
  | kernel l now =>
    obtain ⟨wired, first, rest⟩ := Option.bind_eq_some_iff.mp step
    obtain ⟨timers, second, rfl⟩ := Option.map_eq_some_iff.mp rest
    obtain ⟨at_, -, ok⟩ := h.wired.step first
    exact ⟨ok, fun t => (h.timer t).step h.wired.inv h.wired.timers at_, h.kernel at_ second⟩
  | check fuel now =>
    rw [Timed.step] at step
    split at step
    · next timers notified run =>
      obtain ⟨wired, steps, rfl⟩ := Option.map_eq_some_iff.mp step
      rw [Timer.Timers.ehTimerCheck_eq h.agrees.wf] at run
      have read : (⟨x.wired, x.timers.readClock now, x.started⟩ : Timed T O P W C A).Ok sys clock :=
        ⟨h.wired, h.timer, h.agrees.wf.readClock now, h.agrees.running, h.agrees.once,
          h.agrees.expire⟩
      exact read.drain run steps
    · cases step
  | timer op now =>
    rw [Timed.step] at step
    split at step
    · next admits =>
      split at step
      · next timers run =>
        cases step
        have single : ∀ fuel, op ≠ .check fuel := by
          rintro fuel rfl
          cases admits
        have kept : ∀ t, timers.Wf ∧ timers.timer (clock.timeoutTimer t) =
            x.timers.timer (clock.timeoutTimer t) := by
          intro t
          refine h.agrees.wf.exec (fun eq => ?_) single run
          have owner : clock.owner (clock.timeoutTimer t) = some t := clock.owner_iff.mpr rfl
          have free : (clock.owner (clock.timeoutTimer t)).isNone = true := by
            cases op <;> cases eq <;> exact admits
          rw [owner] at free
          cases free
        refine ⟨h.wired, h.timer, ?_⟩
        exact h.agrees.kept (kept x.eh.self).1 (fun t => (kept t).2) (fun _ => rfl) rfl
          fun _ _ _ eq => eq
      · cases step
    · cases step

omit [DecidableEq O] [DecidableEq P] in
theorem init (main : T) (world : W) (timer : Nat → Timer.EhEventTimer) :
    (Timed.init main world timer : Timed T O P W C A).Ok sys clock :=
  ⟨Wired.init_ok sys main world, .init main world, .initial timer, fun _ => rfl,
    fun _ runs => Bool.noConfusion runs, fun runs => Bool.noConfusion runs⟩

end Ok

theorem Reachable.ok {main : T} {world : W} {timer : Nat → Timer.EhEventTimer}
    (h : x.Reachable sys clock main world timer) : x.Ok sys clock := by
  obtain ⟨ls, run⟩ := h
  exact run.invariant (fun ok step => ok.step step) (.init main world timer)

end Timed

end EventHub.Kernel
