import EventHub.Kernel.Reclaim
import EventHub.Kernel.Deadlines
import EventHub.Timer.Uptime

/-! The sleep of the scheduler's thread on Linux, in `platform_idle_or_extern_event_handler`, among
other threads. A step is a critical section, or what the thread does between two of them. -/

namespace EventHub.Core
open Library Event Kernel

def ehClockToUsec (clocksPerSec clock : Nat) : Nat :=
  let usec := (clock / clocksPerSec * 1000000 % Timer.clockSpan +
    clock % clocksPerSec * 1000000 % Timer.clockSpan / clocksPerSec) % Timer.clockSpan
  if usec ≠ 0 then usec else if clock ≠ 0 then 1 else 0

/-- Where the thread of the scheduler is: in a task, or in `eh_poll` behind `_eh_poll_run`. -/
inductive Place where
  | task
  | handler
  /-- Behind the critical section, with the clock as it was read there and `usec_timeout`. -/
  | unlocked (reading usecTimeout : Nat)
  /-- In `epoll_wait`, behind the start of the relative timer. -/
  | poll (reading start usecTimeout : Nat)
  | polled
  | check
deriving DecidableEq

def Place.sleeps : Place → Option (Nat × Nat)
  | unlocked reading usecTimeout | poll reading _ usecTimeout => some (reading, usecTimeout)
  | _ => none

/-- The system on the host, with `linux_platform` and the event that ends the poll. -/
structure Host (T O P W C A : Type) where
  timed : Timed T O P W C A
  isIdleState : Bool
  waitBreakEvent : Bool
  place : Place

/-- `kernel` and `timer` are calls, of any thread that may make them. -/
inductive HostLabel (T O P C A : Type) where
  | kernel (l : Label T O P C A) (now : Nat)
  | timer (op : Timer.Op) (now : Nat)
  | sleep (now : Nat)
  | poll (now : Nat)
  | wake (broken : Bool)
  | lower
  | check (fuel now : Nat)

variable {T O P W C A : Type}

section Code
variable [DecidableEq T]

def ehGetLoopIdleTime (clocksPerSec : Nat) (x : Timed T O P W C A) (now : Nat) :
    Option (Timer.Timers × Int) :=
  if x.eh.sched.ringEmpty = false ∨ x.eh.sched.state x.eh.self = .ready ∨
      x.eh.sched.state x.eh.self = .runing then some (x.timers, 0)
  else x.timers.ehTimerGetFirstRemainingTime clocksPerSec now

def goBreaks (clock : Clockwork T O) (x : Timed T O P W C A) (now : Nat) :
    Point T P C A → Bool
  | .waitTimer w =>
    let timer := clock.timeoutTimer x.eh.self
    (x.timers.setTimer timer ⟨0, w.timeout, 0, false⟩).firstUpdated now (.start timer)
  | _ => false

/-- A step of the kernel calls `eh_idle_break`. -/
def breaks (sys : System T O W C A) (clock : Clockwork T O) (x : Timed T O P W C A) (now : Nat)
    (l : Label T O P C A) : Bool :=
  (x.eh.wakeUps sys l).any (x.eh.sched.state · = .wait) ||
    match l with
    | .go => goBreaks clock x now (x.eh.point x.eh.self)
    | .create _ _ _ => true
    | _ => false

namespace Host

/-- `platform_idle_break`, where it is called. -/
def platformIdleBreak (h : Host T O P W C A) (called : Bool) : Host T O P W C A :=
  if called && h.isIdleState then { h with waitBreakEvent := true } else h

/-- The critical section of `platform_idle_or_extern_event_handler`. -/
def sleep (clock : Clockwork T O) (h : Host T O P W C A) (now : Nat) :
    Option (Host T O P W C A) :=
  (ehGetLoopIdleTime clock.clocksPerSec h.timed now).map fun (timers, idleTime) =>
    { timed := { h.timed with timers := timers }
      isIdleState := true
      waitBreakEvent := false
      place := .unlocked now (ehClockToUsec clock.clocksPerSec (Timer.toClock idleTime)) }

variable [DecidableEq O] [DecidableEq P]

def step (sys : System T O W C A) (clock : Clockwork T O) (h : Host T O P W C A) :
    HostLabel T O P C A → Option (Host T O P W C A)
  | .kernel l now =>
    if l.outside = true ∨ h.place = .task then
      (h.timed.step sys clock (.kernel l now)).map fun timed =>
        { h.platformIdleBreak (breaks sys clock h.timed now l) with
          timed := timed
          place :=
            if (h.timed.eh.point h.timed.eh.self).polling = true ∧
              (timed.eh.point timed.eh.self).polling = false then .handler else h.place }
    else none
  | .timer op now =>
    (h.timed.step sys clock (.timer op now)).map fun timed =>
      { h.platformIdleBreak (h.timed.timers.firstUpdated now op) with timed := timed }
  | .sleep now => if h.place = .handler then h.sleep clock now else none
  | .poll now =>
    match h.place with
    | .unlocked reading usecTimeout => some { h with place := .poll reading now usecTimeout }
    | _ => none
  -- the poll returns, and its callback reads the event where that is among what it returns
  | .wake broken =>
    match h.place with
    | .poll _ _ _ => some { h with waitBreakEvent := h.waitBreakEvent && !broken, place := .polled }
    | _ => none
  | .lower =>
    if h.place = .polled then some { h with isIdleState := false, place := .check } else none
  -- `is_idle_state` has been lowered, so that `eh_idle_break` does nothing
  | .check fuel now =>
    if h.place = .check then
      (h.timed.step sys clock (.check fuel now)).map fun timed =>
        { h with timed := timed, place := .task }
    else none

/-- Behind the start of the system and `linux_platform_init`. -/
def init (main : T) (world : W) (timer : Nat → Timer.EhEventTimer) : Host T O P W C A :=
  ⟨.init main world timer, false, false, .task⟩

end Host

/-- The timeout of the timer that is started next is an `eh_sclock_t`. -/
def wordTimeout : Point T P C A → Bool
  | .waitTimer w => w.timeout < 9223372036854775808
  | _ => true

def HostLabel.Legal (h : Host T O P W C A) : HostLabel T O P C A → Prop
  | .kernel l now => h.timed.timers.Reads now ∧
    (l.isGo = true → wordTimeout (h.timed.eh.point h.timed.eh.self) = true)
  | .timer op now => h.timed.timers.Reads now ∧ op.word = true
  | .sleep now | .check _ now => h.timed.timers.Reads now
  | .poll now => h.timed.timers.Reads now ∧ (h.place.sleeps.getD (0, 0)).1 ≤ now
  | .wake _ | .lower => True

instance (h : Host T O P W C A) : (l : HostLabel T O P C A) → Decidable (l.Legal h)
  | .kernel _ _ => inferInstanceAs (Decidable (_ ∧ (_ → _)))
  | .timer _ _ | .poll _ => inferInstanceAs (Decidable (_ ∧ _))
  | .sleep _ | .check _ _ => inferInstanceAs (Decidable (Timer.Timers.Reads _ _))
  | .wake _ | .lower => inferInstanceAs (Decidable True)

def Host.Reachable [DecidableEq O] [DecidableEq P] (sys : System T O W C A)
    (clock : Clockwork T O) (main : T) (world : W) (timer : Nat → Timer.EhEventTimer)
    (h : Host T O P W C A) : Prop :=
  ∃ ls, Run (fun h l k => HostLabel.Legal h l ∧ Host.step sys clock h l = some k)
    (.init main world timer) ls h

end Code

/-- No task is ready, and no timer expires before `deadline`. -/
structure Quiet [DecidableEq T] (x : Timed T O P W C A) (deadline : Nat) : Prop where
  ready : ∀ t, x.eh.alive t = true → x.eh.sched.state t ≠ .ready
  timers : x.timers.NotBefore deadline

structure Host.Ok [DecidableEq T] (sys : System T O W C A) (clock : Clockwork T O)
    (h : Host T O P W C A) : Prop where
  timed : h.timed.Ok sys clock
  timers : h.timed.timers.Uptime
  sleeps : ∀ {reading usec}, h.place.sleeps = some (reading, usec) → h.isIdleState = true ∧
    (usec ≠ 0 → h.waitBreakEvent = false → Quiet h.timed (reading + usec))
  poll : ∀ {reading start usec}, h.place = .poll reading start usec → reading ≤ start

theorem Host.Ok.of_awake [DecidableEq T] {sys : System T O W C A} {clock : Clockwork T O}
    {h : Host T O P W C A} (timed : h.timed.Ok sys clock) (timers : h.timed.timers.Uptime)
    (awake : h.place.sleeps = none) : h.Ok sys clock where
  timed := timed
  timers := timers
  sleeps at_ := by
    rw [awake] at at_
    cases at_
  poll at_ := by
    rw [at_] at awake
    cases awake

theorem ehClockToUsec_micro {clock : Nat} (word : clock < Timer.clockSpan) :
    ehClockToUsec 1000000 clock = clock := by
  have whole : clock / 1000000 * 1000000 % Timer.clockSpan = clock / 1000000 * 1000000 :=
    Nat.mod_eq_of_lt ((Nat.div_mul_le_self clock 1000000).trans_lt word)
  have part : clock % 1000000 * 1000000 % Timer.clockSpan / 1000000 = clock % 1000000 := by
    rw [Nat.mod_eq_of_lt (by unfold Timer.clockSpan; omega), Nat.mul_div_cancel _ (by decide)]
  have sum : (clock / 1000000 * 1000000 + clock % 1000000) % Timer.clockSpan = clock := by
    rw [Nat.div_add_mod', Nat.mod_eq_of_lt word]
  rw [ehClockToUsec, whole, part, sum]
  split_ifs <;> omega

theorem Host.platformIdleBreak_quiet (h : Host T O P W C A) (called : Bool) :
    (h.platformIdleBreak called).place = h.place ∧
      (h.platformIdleBreak called).isIdleState = h.isIdleState ∧
      ((h.platformIdleBreak called).waitBreakEvent = false → h.isIdleState = true →
        called = false ∧ h.waitBreakEvent = false) := by
  rw [Host.platformIdleBreak]
  split
  · exact ⟨rfl, rfl, fun quiet => by cases quiet⟩
  · next skipped =>
    refine ⟨rfl, rfl, fun quiet idle => ⟨?_, quiet⟩⟩
    simpa [idle] using skipped

variable [DecidableEq T] {sys : System T O W C A} {clock : Clockwork T O}
  {x y : Timed T O P W C A} {h k : Host T O P W C A} {now : Nat} {s s' : Eh T O P W C A}
  {l : Label T O P C A}

theorem none_ready (inv : Invariant sys s) (empty : s.sched.ringEmpty = true)
    (self : s.sched.state s.self ≠ .ready) (t : T) (live : s.alive t = true) :
    s.sched.state t ≠ .ready := fun ready => by
  obtain ⟨lists, holds, -⟩ := inv.sched.lists
  have other : t ≠ s.self := fun eq => self (eq ▸ ready)
  have home : (s.sched.task t).home = some .ready := by
    rw [EhTask.home, show (s.sched.task t).state = .ready from ready]
  have mem := (holds.mem .ready t).mpr ⟨live, other, home⟩
  rw [holds.ringEmpty.mp empty] at mem
  cases mem

/-- The timeout is computed with nothing ready, and from the first of the timers. -/
theorem Host.Ok.sleep (h_ok : h.Ok sys clock) (micro : clock.clocksPerSec = 1000000)
    (reads : h.timed.timers.Reads now) (step : h.sleep clock now = some k) : k.Ok sys clock := by
  obtain ⟨⟨timers, idleTime⟩, time, rfl⟩ := Option.map_eq_some_iff.mp step
  rw [ehGetLoopIdleTime, micro] at time
  split at time
  · cases time
    refine ⟨h_ok.timed, h_ok.timers, fun {reading usec} at_ => ⟨rfl, fun sleeps => ?_⟩,
      fun at_ => by cases at_⟩
    cases at_
    exact absurd (by rw [micro]; rfl) sleeps
  · next nothing =>
    rw [not_or, not_or] at nothing
    obtain ⟨r, first, nonneg, most, before⟩ := h_ok.timers.firstRemaining reads
    cases time.symm.trans first
    refine ⟨⟨h_ok.timed.wired, h_ok.timed.timer, ?_⟩, h_ok.timers.readClock reads,
      fun {reading usec} at_ => ⟨rfl, fun sleeps _ => ?_⟩, fun at_ => by cases at_⟩
    · exact h_ok.timed.agrees.kept (h_ok.timed.agrees.wf.readClock now) (fun _ => rfl)
        (fun _ => rfl) rfl fun _ _ _ eq => eq
    · cases at_
      have usec : ehClockToUsec clock.clocksPerSec (Timer.toClock idleTime) = idleTime.toNat := by
        rw [micro, Timer.toClock, Int.emod_eq_of_lt nonneg (by unfold Timer.clockSpan; omega)]
        exact ehClockToUsec_micro (by unfold Timer.clockSpan; omega)
      rw [usec] at sleeps ⊢
      refine ⟨none_ready h_ok.timed.wired.inv (Bool.not_eq_false _ ▸ nothing.1) nothing.2.1, ?_⟩
      exact before (by omega)

omit [DecidableEq T] in
theorem kernelTimers_uptime (up : x.timers.Uptime) (idle : x.Agrees clock)
    (ok : ∀ t, TimerOk x.eh t) (reads : x.timers.Reads now)
    (word : l.isGo = true → wordTimeout (x.eh.point x.eh.self) = true) {timers : Timer.Timers}
    (call : x.kernelTimers clock now l = some timers) :
    timers.Uptime ∧ (l.outside = true → timers = x.timers) := by
  cases l with
  | go =>
    refine ⟨?_, fun out => by cases out⟩
    rw [Timed.kernelTimers] at call
    have word := word rfl
    cases at_ : x.eh.point x.eh.self with
    | waitTimer w =>
      rw [at_] at call word
      obtain ⟨pair, start, rfl⟩ := Option.map_eq_some_iff.mp call
      have rests : (x.timers.timer (clock.timeoutTimer x.eh.self)).running = false := by
        rw [idle.running]
        by_contra runs
        have timing := ((ok x.eh.self).running (Bool.not_eq_false _ ▸ runs)).2
        rw [at_] at timing
        cases timing
      have kept : (⟨0, w.timeout, 0, false⟩ : Timer.EhEventTimer).running =
          (x.timers.timer (clock.timeoutTimer x.eh.self)).running := rests.symm
      obtain ⟨set, -⟩ := up.setTimer kept (of_decide_eq_true word) fun mem =>
        absurd mem (Timer.Timers.absent_of_idle up.ordered.wf rests)
      exact (set.start reads start).1
    | waitEnd w ret =>
      rw [at_] at call
      obtain ⟨pair, stop, rfl⟩ := Option.map_eq_some_iff.mp call
      exact (up.stop stop).1
    | _ =>
      rw [at_] at call
      cases call
      exact up
  | expire t => cases call
  | _ =>
    cases call
    exact ⟨up, fun _ => rfl⟩

variable [DecidableEq O] [DecidableEq P]

theorem outside_sched (inv : Invariant sys s) (step : s.step sys l = some s')
    (outside : l.outside = true) :
    s'.sched = (s.wakeUps sys l).foldl Sched.ehTaskWakeUp s.sched ∧ s'.alive = s.alive := by
  have own := inv.event.owned
  cases Eh.step_cases step with
  | go => cases outside
  | user at_ step =>
    cases l with
    | signal | wakeUp | expire | interrupt | interruptGo => cases step
    | _ => cases outside
  | signal g => exact ⟨signal_sched s g, (signal_stirred own g).alive⟩
  | wakeUp live => exact ⟨rfl, rfl⟩
  | expire t =>
    refine ⟨?_, (expire_stirred own t).alive⟩
    rw [Eh.expire, Eh.wakeUps]
    split
    · exact signal_sched _ _
    · rfl
  | interrupt => exact ⟨perform_sched sys s _, (perform_stirred sys own _).alive⟩
  | interruptGo at_ =>
    refine ⟨?_, (perform_stirred sys own _).alive⟩
    rw [Eh.wakeUps, at_]
    exact perform_sched sys s _

theorem Quiet.outside {deadline : Nat} (quiet : Quiet x deadline) (inv : Invariant sys x.eh)
    (step : x.eh.step sys l = some y.eh) (outside : l.outside = true)
    (silent : breaks sys clock x now l = false) (timers : y.timers = x.timers) :
    Quiet y deadline := by
  obtain ⟨sched, alive⟩ := outside_sched inv step outside
  have silent := List.any_eq_false.mp (Bool.or_eq_false_iff.mp silent).1
  refine ⟨fun t live => ?_, timers ▸ quiet.timers⟩
  have same : y.eh.sched.state t = x.eh.sched.state t := by
    rw [sched, Sched.foldl_wakeUp_state, if_neg]
    rintro ⟨mem, waits⟩
    exact silent t mem (decide_eq_true waits)
  rw [same]
  exact quiet.ready t (alive ▸ live)

theorem Host.Ok.step (ok : h.Ok sys clock) (micro : clock.clocksPerSec = 1000000)
    {l : HostLabel T O P C A} (legal : l.Legal h) (step : h.step sys clock l = some k) :
    k.Ok sys clock := by
  cases l with
  | kernel l now =>
    rw [Host.step] at step
    split at step
    · next may =>
      obtain ⟨timed, first, rfl⟩ := Option.map_eq_some_iff.mp step
      have next := ok.timed.step first
      obtain ⟨wired, inner, rest⟩ := Option.bind_eq_some_iff.mp first
      obtain ⟨timers, call, rfl⟩ := Option.map_eq_some_iff.mp rest
      obtain ⟨up, same⟩ := kernelTimers_uptime ok.timers ok.timed.agrees ok.timed.timer legal.1
        legal.2 call
      have same_place : ∀ {place : Place}, place ≠ .handler →
          (if (h.timed.eh.point h.timed.eh.self).polling = true ∧
            (wired.eh.point wired.eh.self).polling = false then .handler else h.place) = place →
          h.place = place := by
        intro place ne at_
        split at at_
        · exact absurd at_.symm ne
        · exact at_
      refine ⟨next, up, fun {reading usec} at_ => ?_,
        fun at_ => ok.poll (same_place (by simp) at_)⟩
      obtain ⟨-, idle, silent⟩ :=
        h.platformIdleBreak_quiet (breaks sys clock h.timed now l)
      have place : h.place.sleeps = some (reading, usec) := by
        dsimp only at at_
        split at at_
        · cases at_
        · exact at_
      obtain ⟨up, quiet⟩ := ok.sleeps place
      have outside : l.outside = true := may.resolve_right fun task => by
        rw [task] at place
        cases place
      refine ⟨idle.trans up, fun sleeps still => ?_⟩
      obtain ⟨none, before⟩ := silent still up
      exact (quiet sleeps before).outside ok.timed.wired.inv (ok.timed.wired.step inner).1 outside
        none (same outside)
    · cases step
  | timer op now =>
    obtain ⟨timed, first, rfl⟩ := Option.map_eq_some_iff.mp step
    have next := ok.timed.step first
    rw [Timed.step] at first
    split at first
    · next admits =>
      split at first
      · next timers run =>
        cases first
        have single : ∀ fuel, op ≠ .check fuel := by
          rintro fuel rfl
          cases admits
        obtain ⟨up, kept⟩ := ok.timers.exec legal.2 legal.1 single run
        obtain ⟨same, idle, silent⟩ :=
          h.platformIdleBreak_quiet (h.timed.timers.firstUpdated now op)
        refine ⟨next, up, fun {reading usec} at_ => ?_, fun at_ => ok.poll (same.symm.trans at_)⟩
        have place : h.place.sleeps = some (reading, usec) := same ▸ at_
        obtain ⟨up, quiet⟩ := ok.sleeps place
        refine ⟨idle.trans up, fun sleeps still => ?_⟩
        obtain ⟨later, before⟩ := silent still up
        exact ⟨(quiet sleeps before).ready, kept later _ (quiet sleeps before).timers⟩
      · cases first
    · cases first
  | sleep now =>
    rw [Host.step] at step
    split at step
    · exact ok.sleep micro legal step
    · cases step
  | poll now =>
    rw [Host.step] at step
    split at step
    · next reading usec at_ =>
      cases step
      have place : h.place.sleeps = some (reading, usec) := by rw [at_]; rfl
      have sleeps := ok.sleeps place
      refine ⟨ok.timed, ok.timers, fun same => ?_, fun same => ?_⟩
      · cases same
        exact sleeps
      · cases same
        have later := legal.2
        rw [at_] at later
        exact later
    · cases step
  | wake broken =>
    rw [Host.step] at step
    split at step
    · cases step
      exact .of_awake ok.timed ok.timers rfl
    · cases step
  | lower =>
    rw [Host.step] at step
    split at step
    · cases step
      exact .of_awake ok.timed ok.timers rfl
    · cases step
  | check fuel now =>
    rw [Host.step] at step
    split at step
    · obtain ⟨timed, first, rfl⟩ := Option.map_eq_some_iff.mp step
      have next := ok.timed.step first
      rw [Timed.step] at first
      split at first
      · next timers notified run =>
        obtain ⟨wired, -, rfl⟩ := Option.map_eq_some_iff.mp first
        rw [Timer.Timers.ehTimerCheck_eq ok.timers.ordered.wf] at run
        exact .of_awake next ((ok.timers.readClock legal).drain run) rfl
      · cases first
    · cases step

theorem Host.Reachable.ok {main : T} {world : W} {timer : Nat → Timer.EhEventTimer}
    (word : ∀ i, (timer i).interval < 9223372036854775808)
    (micro : clock.clocksPerSec = 1000000) (reachable : h.Reachable sys clock main world timer) :
    h.Ok sys clock := by
  obtain ⟨ls, run⟩ := reachable
  exact run.invariant (fun ok step => ok.step micro step.1 step.2)
    (.of_awake (.init main world timer) (.initial word) rfl)

/-- While the thread of the scheduler sleeps in the host's poll and nothing has told it to wake up,
no task is ready. A timer that runs may be due before the poll times out, but by no more than the
time between the computation of the timeout and the start of the poll. -/
theorem platformIdle_misses_nothing (sys : System T O W C A) (clock : Clockwork T O) (main : T)
    (world : W) (timer : Nat → Timer.EhEventTimer)
    (word : ∀ i, (timer i).interval < 9223372036854775808)
    (micro : clock.clocksPerSec = 1000000) (h : Host T O P W C A)
    (reachable : h.Reachable sys clock main world timer) (reading start usecTimeout : Nat)
    (polls : h.place = .poll reading start usecTimeout) (blocks : usecTimeout ≠ 0)
    (quiet : h.waitBreakEvent = false) :
    (∀ t, h.timed.eh.alive t = true → h.timed.eh.sched.state t ≠ .ready) ∧
      reading ≤ start ∧ ∀ i, (h.timed.timers.timer i).running = true →
        ∀ now, h.timed.timers.timerNow ≤ now → now + (start - reading) < start + usecTimeout →
          0 < (h.timed.timers.readClock now).remaining i := by
  have ok := reachable.ok word micro
  obtain ⟨ready, timers⟩ := (ok.sleeps (by rw [polls]; rfl)).2 blocks quiet
  have later := ok.poll polls
  refine ⟨ready, later, fun i running now since before => ?_⟩
  have mem := (ok.timers.ordered.wf.running i).mp running
  have bound := timers i mem
  have ahead := ok.timers.ahead i mem
  have left : Timer.ehDiffTime (h.timed.timers.timer i).expire now =
      (h.timed.timers.timer i).expire - now := Timer.bmod_exact (by omega) (by omega)
  change 0 < Timer.ehDiffTime (h.timed.timers.timer i).expire now
  rw [left]
  omega

def Host.runs (ls : List (HostLabel Nat Unit Unit Unit Empty)) :
    Option (Host Nat Unit Unit Unit Unit Empty) :=
  ls.foldlM (fun h l => if l.Legal h then h.step plain evenStacks l else none)
    (.init 0 () fun _ => ⟨0, 0, 0, false⟩)

theorem Host.reachable_get {ls : List (HostLabel Nat Unit Unit Unit Empty)}
    (some : (Host.runs ls).isSome = true) :
    ((Host.runs ls).get some).Reachable plain evenStacks 0 () fun _ => ⟨0, 0, 0, false⟩ := by
  refine ⟨ls, (Run.of_foldlM_some (Option.some_get some).symm).imp fun step => ?_⟩
  split at step
  · exact ⟨‹_›, step⟩
  · cases step

/-- The main task waits with the timeout 10 from 5 on, the timeout of the poll is computed at 6, and
its timer is started at 8. -/
def mainSleeps : List (HostLabel Nat Unit Unit Unit Empty) :=
  (callThen (.wait ⟨.object (), 10⟩) 5).map (.kernel · 5) ++ [.sleep 6, .poll 8]

theorem mainSleeps_runs : (Host.runs mainSleeps).isSome = true := rfl

theorem mainSleeps_place : ((Host.runs mainSleeps).get mainSleeps_runs).place = .poll 6 8 9 := by
  decide +kernel

theorem platformIdle_misses_nothing_nine : ∃ h : Host Nat Unit Unit Unit Unit Empty,
    h.Reachable plain evenStacks 0 () (fun _ => ⟨0, 0, 0, false⟩) ∧ h.place = .poll 6 8 9 ∧
      h.waitBreakEvent = false ∧ (h.timed.timers.timer 0).running = true ∧
      0 < (h.timed.timers.readClock 14).remaining 0 := by
  have reachable := Host.reachable_get mainSleeps_runs
  have misses := (platformIdle_misses_nothing plain evenStacks 0 () _ (fun _ => by decide) rfl _
    reachable 6 8 9 mainSleeps_place (by decide) rfl).2.2 0 rfl 14 (Nat.le_of_ble_eq_true rfl)
    (by decide)
  exact ⟨_, reachable, mainSleeps_place, rfl, rfl, misses⟩

/-- The timer is due at 15, and the poll times out at 17. -/
theorem platformIdle_oversleeps : ∃ h : Host Nat Unit Unit Unit Unit Empty,
    h.Reachable plain evenStacks 0 () (fun _ => ⟨0, 0, 0, false⟩) ∧ h.place = .poll 6 8 9 ∧
      h.waitBreakEvent = false ∧ (h.timed.timers.timer 0).running = true ∧
      ¬∀ now, h.timed.timers.timerNow ≤ now → now < 8 + 9 →
        0 < (h.timed.timers.readClock now).remaining 0 := by
  refine ⟨_, Host.reachable_get mainSleeps_runs, mainSleeps_place, rfl, rfl, fun before => ?_⟩
  exact absurd (before 15 (Nat.le_of_ble_eq_true rfl) (by decide)) (by decide +kernel)

end EventHub.Core
