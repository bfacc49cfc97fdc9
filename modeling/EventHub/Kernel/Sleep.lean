import EventHub.Core.Conversions
import EventHub.Kernel.Deadlines

/-! `eh_usleep`. The timer and its event are on the stack of the function, so nobody else has
them: the task comes back when a check has found the timer due, and not before. -/

namespace EventHub.Kernel
open Library Event

/-! What reaches a receptor. -/

section Flags
variable {T O P W C A : Type} [DecidableEq T] [DecidableEq O] [DecidableEq P]
  {sys : System T O W C A} {s s' : Eh T O P W C A} {l : Label T O P C A} {t : T}
  {k : After T P C}

theorem signal_flags {r : Receptor (EhEvent T O) T P} {g : Signal (EhEvent T O)}
    (out : r ∉ s.events.receptors g.event) : (s.signal g).events.flags r = s.events.flags r := by
  cases g with
  | notify e =>
    rw [Signal.event] at out
    rw [Eh.signal, Eh.reach, Events.ehEventNotify, Events.foldl_notify_flags, if_neg out]
  | notifyAndReorder e num =>
    rw [Signal.event] at out
    rw [Eh.signal, Eh.reach, Events.ehEventNotifyAndReorder, Events.foldl_notify_flags,
      Events.reordered, if_neg fun mem => out (List.mem_of_mem_take mem)]
  | clean e =>
    rw [Signal.event] at out
    rw [Eh.signal, Eh.reach, Events.ehEventClean, Events.foldl_clean_flags, if_neg out]

def Eh.CallsApart (sys : System T O W C A) (s : Eh T O P W C A) (t : T) : Prop :=
  ∀ a u world g, (sys.act a u world).signal = some g →
    .wait t ∉ s.events.receptors (.object g.event)

theorem perform_flags (apart : s.CallsApart sys t) (a : A) :
    (s.perform sys a).events.flags (.wait t) = s.events.flags (.wait t) := by
  rw [Eh.perform]
  split
  · rfl
  · next g eq =>
    have out : .wait t ∉ s.events.receptors (g.map .object).event := by
      cases g <;> exact apart a s.self s.world _ eq
    exact signal_flags (s := { s with world := (sys.act a s.self s.world).world }) out

omit [DecidableEq O] [DecidableEq P] in
theorem autoDestruct_events (x : Eh T O P W C A) (pos : Node T) (idle : Bool)
    (k : After T P C) : (x.autoDestruct pos idle k).events = x.events := by
  rw [Eh.autoDestruct]
  split <;> rfl

theorem read_flags (s : Eh T O P W C A) (q : P) (n : Nat) :
    (s.events.ehEpollPendingReadOnLock q n).2.flags (.wait t) = s.events.flags (.wait t) := by
  obtain ⟨-, flags, -⟩ := readPending_frame q s.events (s.events.epoll q).pending n
  exact flags _ (by simp)

theorem enter_flags (sys : System T O W C A) (s : Eh T O P W C A) (w : Wait T P C) :
    (s.enter sys w).events.flags (.wait t) = s.events.flags (.wait t) := by
  rw [Eh.enter]
  split
  · split_ifs
    · rfl
    · rfl
    · exact read_flags s _ _
  all_goals
    split
    · rfl
    · rw [(startWait_frame w).1]
    · rw [(startWait_frame w).1]

theorem check_flags (sys : System T O W C A) (s : Eh T O P W C A) (w : Wait T P C) :
    (s.check sys w).2.events.flags (.wait t) = s.events.flags (.wait t) := by
  rw [Eh.check]
  split
  · dsimp only
    split <;> exact read_flags s _ _
  all_goals
    dsimp only
    split
    · split_ifs <;> rfl
    · split_ifs <;> rfl

theorem loopWait_flags (sys : System T O W C A) (s : Eh T O P W C A) (w : Wait T P C) :
    (s.loopWait sys w).events.flags (.wait t) = s.events.flags (.wait t) := by
  have checked := check_flags (t := t) sys s w
  rw [Eh.loopWait]
  cases result : s.check sys w with
  | mk ret x =>
    rw [result] at checked
    rw [← checked]
    cases ret with
    | some ret =>
      dsimp only [Eh.leaveWait, Eh.setPoint]
      split
      · rfl
      all_goals split <;> rfl
    | none =>
      dsimp only [Eh.park, Eh.setPoint]
      split <;> rfl

theorem pollStep_flags (tasks : ∀ u, .wait t ∉ s.events.receptors (.task u)) {pp : PollPoint T}
    {idle : Bool} (step : s.pollStep idle k pp = some s') :
    s'.events.flags (.wait t) = s.events.flags (.wait t) := by
  cases pp with
  | start =>
    rw [Eh.pollStep] at step
    split at step <;> cases step
    · rw [autoDestruct_events]
    · rfl
  | destroy pos n =>
    cases pos with
    | task u =>
      cases step
      exact signal_flags (g := .clean (.task u)) (tasks u)
    | _ => cases step
  | unlink pos n =>
    cases pos with
    | task u =>
      cases step
      rw [autoDestruct_events]
      rfl
    | _ => cases step

theorem go_flags (step : s.go sys = some s') (apart : s.CallsApart sys t)
    (tasks : ∀ u, .wait t ∉ s.events.receptors (.task u))
    (away : t = s.self → ∀ w, s.point s.self ≠ .waitAdd w) :
    s'.events.flags (.wait t) = s.events.flags (.wait t) := by
  rw [Eh.go] at step
  split at step
  · cases step
    rfl
  · cases step
  · cases step
    exact perform_flags apart _
  · cases step
    simp [Eh.startTimer, Eh.setPoint]
  · next at_ =>
    have ne : t ≠ s.self := fun own => away own _ at_
    cases step
    rw [Eh.linkReceptor]
    split
    · simp [Eh.setPoint, Events.addReceptor, Events.setFlags, ne]
    · rfl
  · cases step
    exact loopWait_flags sys s _
  · cases step
    rfl
  · cases step
    rw [Eh.afterWait]
    split
    · next u eq =>
      split
      · rfl
      · exact signal_flags (g := .clean (.task u)) (tasks u)
    · rfl
    · rfl
  · cases step
    rfl
  · cases step
    exact signal_flags (g := .notify (.task s.self)) (tasks s.self)
  · cases step
    rw [Eh.nextStep]
    split <;> rfl
  · exact pollStep_flags tasks step
  · rw [Eh.dispatch] at step
    split at step
    · cases step
      rfl
    · split at step
      · cases step
        rfl
      · cases step
  · rw [Eh.idleCheck] at step
    split at step
    · rw [(continueAt_frame step).1]
    · cases step
      rfl
  · rw [Eh.resume] at step
    rw [(continueAt_frame step).1]

theorem user_flags (step : s.user sys l = some s') (apart : s.CallsApart sys t)
    (tasks : ∀ u, .wait t ∉ s.events.receptors (.task u)) :
    s'.events.flags (.wait t) = s.events.flags (.wait t) := by
  cases Eh.user_cases step with
  | wait => exact enter_flags sys s _
  | @act a => exact perform_flags apart a
  | create => rfl
  | yield => rfl
  | ret => rfl
  | exitMain => rfl
  | exit =>
    exact signal_flags (s := { s with sched := s.sched.setState s.self .finish })
      (g := .notify (.task s.self)) (tasks s.self)
  | epollAdd =>
    rw [Eh.ehEpollAddEvent]
    split
    · rfl
    · simp [Events.addReceptor, Events.setFlags]
  | epollDel =>
    rw [Eh.ehEpollDelEvent]
    split <;> rfl

theorem step_flags (step : s.step sys l = some s') (apart : s.CallsApart sys t)
    (others : ∀ e, (∀ o, e ≠ .object o) → .wait t ∉ s.events.receptors e)
    (silent : ∀ g, l = .signal g → .wait t ∉ s.events.receptors g.event)
    (away : l = .go → t = s.self → ∀ w, s.point s.self ≠ .waitAdd w) :
    s'.events.flags (.wait t) = s.events.flags (.wait t) := by
  have tasks : ∀ u, .wait t ∉ s.events.receptors (.task u) := fun u => others _ (by simp)
  cases Eh.step_cases step with
  | go step => exact go_flags step apart tasks (away rfl)
  | user at_ step => exact user_flags step apart tasks
  | signal g => exact signal_flags (silent g rfl)
  | wakeUp live => rfl
  | expire u =>
    rw [Eh.expire]
    split
    · exact signal_flags
        (s := { s with timerRunning := Function.update s.timerRunning u false })
        (g := .notify (.timer u)) (others _ (by simp [Signal.event]))
    · rfl
  | interrupt => exact perform_flags apart _
  | interruptGo => exact perform_flags apart _

end Flags

/-! The call, and who sleeps in it. -/

section Code
variable {T O P W C A : Type}

/-- `(eh_sclock_t)eh_usec_to_clock(usec)`. -/
def sleepInterval (clocksPerSec usec : Nat) : Int :=
  Int.bmod (Core.ehUsecToClock clocksPerSec usec) Timer.clockSpan

/-- The wait of `eh_usleep`, for the event of its timer. -/
def sleepWait (c : C) : Wait T P C := ⟨.object c, ehTimeForever⟩

namespace Timed

def ehEventInit [DecidableEq T] [DecidableEq O] [DecidableEq P] (x : Timed T O P W C A)
    (e : EhEvent T O) : Timed T O P W C A :=
  { x with wired :=
    { eh := { x.eh with events := { x.eh.events with
        receptors := Function.update x.eh.events.receptors e [] } }
      links := x.wired.links.alone (.head e) } }

/-- `eh_timer_advanced_init`, for the timer at `i`. -/
def ehTimerAdvancedInit [DecidableEq T] [DecidableEq O] [DecidableEq P] (clock : Clockwork T O)
    (x : Timed T O P W C A) (i : Nat) (interval : Int) (attr : Nat) : Timed T O P W C A :=
  let x := x.ehEventInit (.object (clock.event i))
  { x with timers := x.timers.setTimer i ⟨0, interval, attr, false⟩ }

/-- `eh_usleep` up to its wait, and the wait: `sleep_timer` is at `i`, and the clock reads
`now`. -/
def ehUsleep [DecidableEq T] [DecidableEq O] [DecidableEq P] (clock : Clockwork T O)
    (x : Timed T O P W C A) (i : Nat) (c : C) (usec now : Nat) :
    Option (Timed T O P W C A × Option (Wait T P C)) :=
  if usec = 0 then some (x, none)
  else
    let x := x.ehTimerAdvancedInit clock i (sleepInterval clock.clocksPerSec usec) 0
    (x.timers.ehTimerStart i now).map fun started =>
      ({ x with timers := started.1 }, some (sleepWait c))

end Timed

/-- The timer at `i` is one of the program, its event is what `c` waits for, and nothing else in
the program has to do with this event. -/
structure Sleeper (sys : System T O W C A) (clock : Clockwork T O) (i : Nat) (c : C) : Prop where
  program : clock.owner i = none
  event : sys.event c = clock.event i
  plain : sys.condition c = none
  alone : ∀ {j}, clock.owner j = none → clock.event j = clock.event i → j = i
  quiet : ∀ {a t world g}, (sys.act a t world).signal = some g → g.event ≠ clock.event i

/-- What may happen while `t` is in `eh_usleep`: nobody signals the event, and the task itself
goes on to the wait. -/
def Eh.Private (s : Eh T O P W C A) (t : T) (c : C) (o : O) (l : Label T O P C A) : Prop :=
  (∀ g, l = .signal g → g.event ≠ .object o) ∧
    (s.self = t → s.point t = .user → l.outside = true ∨ l = .wait (sleepWait c))

def Timed.Private (clock : Clockwork T O) (x : Timed T O P W C A) (t : T) (c : C) (i : Nat) :
    TimedLabel T O P C A → Prop
  | .kernel l _ => x.eh.Private t c (clock.event i) l
  | .check _ _ => True
  | .timer op _ => op.timer ≠ some i

structure Eh.Sleeps (s : Eh T O P W C A) (t : T) (c : C) : Prop where
  alive : s.alive t = true
  place : s.self = t ∧ s.point t = .user ∨ s.point t = .waitAdd (sleepWait c) ∨
    (s.point t).waits = some (sleepWait c) ∧ (s.events.flags (.wait t)).any = false

/-- The timer as `eh_timer_start` has left it. -/
def sleepTimer (interval : Int) (expire : Nat) : Timer.EhEventTimer :=
  if 0 ≤ interval then ⟨expire, interval, 0, true⟩ else ⟨0, interval, 0, false⟩

end Code

section Sleep
variable {T O P W C A : Type} [DecidableEq T] [DecidableEq O] [DecidableEq P]
  {sys : System T O W C A} {clock : Clockwork T O} {s s' : Eh T O P W C A}
  {l : Label T O P C A} {t : T} {c : C} {i : Nat}

omit [DecidableEq T] [DecidableEq O] [DecidableEq P] in
theorem Eh.Sleeps.linked (h : s.Sleeps t c) (inv : Invariant sys s) {e : EhEvent T O}
    (mem : .wait t ∈ s.events.receptors e) : e = .object (sys.event c) := by
  obtain ⟨-, w, waits, event⟩ := (inv.event.task t).wait mem
  rcases h.place with ⟨-, at_⟩ | at_ | ⟨inLoop, -⟩
  · rw [at_] at waits
    cases waits
  · rw [at_] at waits
    cases waits
  · rw [inLoop] at waits
    cases waits
    cases event
    rfl

theorem Eh.Private.enters (priv : s.Private t c (clock.event i) l) (inv : Invariant sys s)
    (sleeper : Sleeper sys clock i c) (step : s.step sys l = some s') (self : s.self = t)
    (at_ : s.point t = .user) :
    s'.self = t ∧ s'.point t = .user ∨ s'.point t = .waitAdd (sleepWait c) := by
  subst self
  rcases priv.2 rfl at_ with outside | rfl
  · have moved := step_moved inv step
    cases moved with
    | go => cases outside
    | calls user calls => cases calls <;> cases outside
    | outside _ point self => exact .inl ⟨self, (congrFun point _).trans at_⟩
  · cases Eh.step_cases step with
    | user _ step =>
    cases Eh.user_cases step
    refine .inr ?_
    simp [sleepWait, Eh.enter, Eh.condition, sleeper.plain, Eh.startWait, Eh.setPoint]

theorem waitAdd_links (inv : Invariant sys s) (live : s.alive t = true)
    (step : s.step sys l = some s') (at_ : s.point t = .waitAdd (sleepWait c)) :
    s'.point t = .waitAdd (sleepWait c) ∨
      (s'.point t).waits = some (sleepWait c) ∧ (s'.events.flags (.wait t)).any = false := by
  by_cases own : l = .go ∧ t = s.self
  · obtain ⟨rfl, rfl⟩ := own
    rw [Eh.step, Eh.go, at_] at step
    cases step
    refine .inr ⟨?_, ?_⟩
    · simp [Eh.linkReceptor, sleepWait, Wait.event, Eh.setPoint, Point.waits]
    · simp [Eh.linkReceptor, sleepWait, Wait.event, Eh.setPoint, Events.addReceptor,
        Events.setFlags, Flags.any, Flags.clear]
  · have away : l = .go → t ≠ s.self := fun go eq => own ⟨go, eq⟩
    have aside := step_aside inv live step away (by simp [at_])
    exact .inl (aside.point.trans at_)

theorem loop_waits (inv : Invariant sys s) (sleeper : Sleeper sys clock i c)
    (live : s.alive t = true) (step : s.step sys l = some s')
    (waits : (s.point t).waits = some (sleepWait c))
    (clear : (s.events.flags (.wait t)).any = false) :
    (s'.point t).waits = some (sleepWait c) := by
  by_cases own : l = .go ∧ t = s.self
  · obtain ⟨rfl, rfl⟩ := own
    by_cases loop : s.point s.self = .waitLoop (sleepWait c)
    · rw [Eh.step, Eh.go, loop] at step
      cases step
      have goes : s.check sys (sleepWait c) = (none, s) := by
        simp [Eh.check, sleepWait, Eh.condition, sleeper.plain, clear, Eh.checkTimer, Wait.timed]
      rw [Eh.loopWait, goes]
      simp [Eh.park, Eh.setPoint, Point.waits]
    · exact (go_waits inv step waits loop).1
  · have away : l = .go → t ≠ s.self := fun go eq => own ⟨go, eq⟩
    have busy : s.point t ≠ .user := fun user => by
      rw [user] at waits
      cases waits
    rw [(step_aside inv live step away busy).point]
    exact waits

theorem Eh.Sleeps.step (h : s.Sleeps t c) (inv : Invariant sys s) (sleeper : Sleeper sys clock i c)
    (step : s.step sys l = some s') (priv : s.Private t c (clock.event i) l) : s'.Sleeps t c := by
  have alive : s'.alive t = true := by
    refine step_alive inv step h.alive ?_
    rcases h.place with ⟨self, -⟩ | at_ | ⟨waits, -⟩
    · exact .inl self.symm
    · refine .inl (not_not.mp fun ne => ?_)
      have parked := inv.sched.parked h.alive ne
      rw [at_] at parked
      cases parked
    · exact waits_unfinished inv h.alive waits
  refine ⟨alive, ?_⟩
  rcases h.place with ⟨self, at_⟩ | at_ | ⟨waits, clear⟩
  · exact (priv.enters inv sleeper step self at_).imp_right .inl
  · exact .inr (waitAdd_links inv h.alive step at_)
  · have linked : ∀ {e}, .wait t ∈ s.events.receptors e → e = .object (clock.event i) :=
      fun mem => sleeper.event ▸ h.linked inv mem
    have notAdd : ∀ w, s.point t ≠ .waitAdd w := fun w add => by
      rw [add] at waits
      cases waits
    have flags : s'.events.flags (.wait t) = s.events.flags (.wait t) := by
      refine step_flags step (fun a u world g signal mem => ?_) (fun e ne mem => ne _ (linked mem))
        (fun g eq mem => priv.1 g eq (linked mem)) fun _ self w => self ▸ notAdd w
      exact sleeper.quiet signal (EhEvent.object.inj (linked mem))
    exact .inr (.inr ⟨loop_waits inv sleeper h.alive step waits clear, flags ▸ clear⟩)

structure Timed.Sleeps (x : Timed T O P W C A) (t : T) (c : C) (i : Nat) (interval : Int)
    (expire : Nat) : Prop where
  eh : x.eh.Sleeps t c
  timer : x.timers.timer i = sleepTimer interval expire

omit [DecidableEq T] [DecidableEq O] [DecidableEq P] in
theorem Sleeper.ne_timeoutTimer (sleeper : Sleeper sys clock i c) (u : T) :
    i ≠ clock.timeoutTimer u := fun eq => by
  have owner := clock.owner_iff.mpr eq.symm
  rw [sleeper.program] at owner
  cases owner

theorem ehTimerStart_other {s s' : Timer.Timers} {j y now : ℕ} {ret : Int} (ne : y ≠ j)
    (run : s.ehTimerStart j now = some (s', ret)) : s'.timer y = s.timer y := by
  rw [Timer.Timers.ehTimerStart] at run
  split at run
  · rw [Timer.Timers.startNoLock] at run
    split at run
    · cases run
      rfl
    · obtain ⟨⟨root, first⟩, -, eq⟩ := Option.map_eq_some_iff.mp run
      cases eq
      simp [Timer.Timers.setTimer, ne]
  · cases run
    rfl

variable {x y : Timed T O P W C A} {interval : ℤ} {expire : ℕ}

omit [DecidableEq O] [DecidableEq P] in
theorem Timed.goTimers_other {now : ℕ} {p : Point T P C A} {timers : Timer.Timers}
    (h : x.Ok sys clock) (sleeper : Sleeper sys clock i c)
    (call : x.goTimers clock now p = some timers) : timers.timer i = x.timers.timer i := by
  have ne := sleeper.ne_timeoutTimer x.eh.self
  cases p with
  | waitTimer w =>
    obtain ⟨⟨timers', ret⟩, start, rfl⟩ := Option.map_eq_some_iff.mp call
    exact (ehTimerStart_other ne start).trans (Function.update_of_ne ne ..)
  | waitEnd w ret =>
    obtain ⟨⟨timers', ret'⟩, stop, rfl⟩ := Option.map_eq_some_iff.mp call
    rw [(h.agrees.wf.stop stop).2.1, Function.update_of_ne ne]
  | _ =>
    cases call
    rfl

omit [DecidableEq T] [DecidableEq O] [DecidableEq P] in
theorem Sleeper.due_private (sleeper : Sleeper sys clock i c) (s : Eh T O P W C A) {j : ℕ}
    (other : j ≠ i) : s.Private t c (clock.event i) (clock.due j) := by
  rw [Clockwork.due]
  cases owner : clock.owner j with
  | some u =>
    refine ⟨fun g eq => ?_, fun _ _ => .inl rfl⟩
    cases eq
  | none =>
    refine ⟨fun g eq same => ?_, fun _ _ => .inl rfl⟩
    cases eq
    exact other (sleeper.alone owner (EhEvent.object.inj same))

omit [DecidableEq T] [DecidableEq O] [DecidableEq P] in
theorem Timed.Sleeps.due (sleeps : x.Sleeps t c i interval expire)
    (runs : (x.timers.timer i).running = true) (due : x.timers.remaining i ≤ 0) :
    0 ≤ interval ∧ Timer.ehDiffTime expire x.timers.timerNow ≤ 0 := by
  rw [sleeps.timer, sleepTimer] at runs
  have nonneg : 0 ≤ interval := by
    by_contra negative
    rw [if_neg negative] at runs
    cases runs
  rw [Timer.Timers.remaining, sleeps.timer, sleepTimer, if_pos nonneg] at due
  exact ⟨nonneg, due⟩

theorem Timed.Sleeps.drain {fuel time : ℕ} {notified : List ℕ} {wired wired' : Wired T O P W C A}
    {timers timers' : Timer.Timers} {started : T → ℕ}
    (sleeps : (⟨wired, timers, started⟩ : Timed T O P W C A).Sleeps t c i interval expire)
    (h : (⟨wired, timers, started⟩ : Timed T O P W C A).Ok sys clock)
    (sleeper : Sleeper sys clock i c) (reading : timers.timerNow = time)
    (run : Timer.Timers.drain fuel timers = .ok (timers', notified))
    (steps : (notified.map clock.due).foldlM (Wired.step sys) wired = some wired') :
    (⟨wired', timers', started⟩ : Timed T O P W C A).Sleeps t c i interval expire ∨
      0 ≤ interval ∧ Timer.ehDiffTime expire time ≤ 0 := by
  induction fuel generalizing wired timers notified with
  | zero =>
    rw [Timer.Timers.drain] at run
    split at run
    · cases run
      cases steps
      exact .inl sleeps
    · cases run
  | succ fuel ih =>
    rw [Timer.Timers.drain] at run
    split at run
    · cases run
      cases steps
      exact .inl sleeps
    · next j first =>
      obtain ⟨rest, front, due⟩ := Timer.Timers.front_of_due h.agrees.wf first
      obtain ⟨timers₁, body, it⟩ := Timer.Timers.checkBody_ok h.agrees.wf front
      simp only [body] at run
      cases more : Timer.Timers.drain fuel timers₁ with
      | error e =>
        rw [more] at run
        cases run
      | ok result =>
        rw [more] at run
        cases run
        rw [List.map_cons, List.foldlM_cons] at steps
        obtain ⟨wired₁, step, steps⟩ := Option.bind_eq_some_iff.mp steps
        by_cases own : j = i
        · -- its own timer is the first one, so it runs and is due
          subst own
          have runs := (h.agrees.wf.running j).mpr (by simp [front])
          exact .inr (reading ▸ sleeps.due runs due)
        · have eh := sleeps.eh.step h.wired.inv sleeper (h.wired.step step).1
            (sleeper.due_private _ own)
          have timer := (it.other i (Ne.symm own)).trans sleeps.timer
          exact ih ⟨eh, timer⟩ (h.fire front step body) (it.timerNow.trans reading) more steps

theorem Timed.Sleeps.step {l : TimedLabel T O P C A} (sleeps : x.Sleeps t c i interval expire)
    (h : x.Ok sys clock) (sleeper : Sleeper sys clock i c) (priv : x.Private clock t c i l)
    (step : x.step sys clock l = some y) : y.Sleeps t c i interval expire ∨
      0 ≤ interval ∧ ∃ fuel time, l = .check fuel time ∧ Timer.ehDiffTime expire time ≤ 0 := by
  cases l with
  | kernel l now =>
    obtain ⟨wired, first, rest⟩ := Option.bind_eq_some_iff.mp step
    obtain ⟨timers, second, rfl⟩ := Option.map_eq_some_iff.mp rest
    refine .inl ⟨sleeps.eh.step h.wired.inv sleeper (h.wired.step first).1 priv, ?_⟩
    have same : timers.timer i = x.timers.timer i := by
      cases l with
      | go => exact goTimers_other h sleeper second
      | expire u => cases second
      | _ =>
        cases second
        rfl
    exact same.trans sleeps.timer
  | check fuel now =>
    rw [Timed.step] at step
    split at step
    · next timers notified run =>
      obtain ⟨wired, steps, rfl⟩ := Option.map_eq_some_iff.mp step
      rw [Timer.Timers.ehTimerCheck_eq h.agrees.wf] at run
      have read : (⟨x.wired, x.timers.readClock now, x.started⟩ : Timed T O P W C A).Ok sys clock :=
        ⟨h.wired, h.timer, h.agrees.wf.readClock now, h.agrees.running, h.agrees.once,
          h.agrees.expire⟩
      have start : (⟨x.wired, x.timers.readClock now, x.started⟩ :
          Timed T O P W C A).Sleeps t c i interval expire := ⟨sleeps.eh, sleeps.timer⟩
      refine (start.drain read sleeper rfl run steps).imp_right fun found => ?_
      exact ⟨found.1, fuel, now, rfl, found.2⟩
    · cases step
  | timer op now =>
    rw [Timed.step] at step
    split at step
    · next admits =>
      split at step
      · next timers run =>
        cases step
        have single : ∀ fuel, op ≠ .check fuel := by
          rintro fuel rfl
          cases admits
        exact .inl ⟨sleeps.eh, (h.agrees.wf.exec priv single run).2.trans sleeps.timer⟩
      · cases step
    · cases step

theorem Timed.Sleeps.run {ls : List (TimedLabel T O P C A)}
    (sleeps : x.Sleeps t c i interval expire) (h : x.Ok sys clock)
    (sleeper : Sleeper sys clock i c)
    (run : Run (fun x l y => x.Private clock t c i l ∧ x.step sys clock l = some y) x ls y) :
    y.Ok sys clock ∧ (y.Sleeps t c i interval expire ∨
      0 ≤ interval ∧ ∃ fuel time, .check fuel time ∈ ls ∧ Timer.ehDiffTime expire time ≤ 0) := by
  induction run with
  | nil => exact ⟨h, .inl sleeps⟩
  | snoc before last ih =>
    obtain ⟨ok, asleep⟩ := ih
    refine ⟨ok.step last.2, ?_⟩
    rcases asleep with asleep | ⟨nonneg, fuel, time, mem, due⟩
    · refine (asleep.step ok sleeper last.1 last.2).imp_right ?_
      rintro ⟨nonneg, fuel, time, rfl, due⟩
      exact ⟨nonneg, fuel, time, by simp, due⟩
    · exact .inr ⟨nonneg, fuel, time, List.mem_append_left _ mem, due⟩

omit [DecidableEq O] [DecidableEq P] in
theorem Timed.Ok.setProgram (h : x.Ok sys clock) (sleeper : Sleeper sys clock i c)
    {timers : Timer.Timers} (wf : timers.Wf)
    (other : ∀ j, j ≠ i → timers.timer j = x.timers.timer j) :
    ({ x with timers := timers } : Timed T O P W C A).Ok sys clock := by
  refine ⟨h.wired, h.timer, h.agrees.kept wf (fun u => ?_) (fun _ => rfl) rfl fun _ _ _ eq => eq⟩
  exact other _ (sleeper.ne_timeoutTimer u).symm

theorem Timed.Ok.ehEventInit (h : x.Ok sys clock) {e : EhEvent T O}
    (fresh : x.eh.events.receptors e = []) : x.ehEventInit e = x := by
  have links := h.wired.wires.aloneHead fresh
  obtain ⟨⟨eh, m⟩, timers, started⟩ := x
  have same : Function.update eh.events.receptors e [] = eh.events.receptors :=
    Function.update_eq_self_iff.mpr fresh.symm
  simp only [Timed.ehEventInit, Timed.eh, same]
  rw [links]

theorem Timed.Ok.ehUsleep (h : x.Ok sys clock) (sleeper : Sleeper sys clock i c) {usec : ℕ}
    (positive : usec ≠ 0) (now : ℕ) (user : x.eh.point x.eh.self = .user)
    (fresh : x.eh.events.receptors (.object (clock.event i)) = [])
    (idle : (x.timers.timer i).running = false) :
    ∃ x', x.ehUsleep clock i c usec now = some (x', some (sleepWait c)) ∧ x'.Ok sys clock ∧
      x'.Sleeps x.eh.self c i (sleepInterval clock.clocksPerSec usec)
        ((now + Timer.toClock (sleepInterval clock.clocksPerSec usec)) % Timer.clockSpan) := by
  obtain ⟨interval, eq⟩ : ∃ interval, interval = sleepInterval clock.clocksPerSec usec :=
    ⟨_, rfl⟩
  rw [Timed.ehUsleep, if_neg positive, Timed.ehTimerAdvancedInit, h.ehEventInit fresh, ← eq]
  have wf : (x.timers.setTimer i ⟨0, interval, 0, false⟩).Wf := h.agrees.wf.setTimer idle.symm
  have own : (x.timers.setTimer i ⟨0, interval, 0, false⟩).timer i = ⟨0, interval, 0, false⟩ :=
    Function.update_self ..
  obtain ⟨timers, ret, start⟩ : ∃ timers ret,
      (x.timers.setTimer i ⟨0, interval, 0, false⟩).ehTimerStart i now = some (timers, ret) := by
    rcases Timer.Timers.ehTimerStart_cases (x.timers.setTimer i ⟨0, interval, 0, false⟩) i now
      with ⟨-, run⟩ | ⟨-, -, run⟩ | ⟨-, stopped, run⟩
    · exact ⟨_, _, run⟩
    · exact ⟨_, _, run⟩
    · obtain ⟨timers, before, after, inserted, -⟩ :=
        Timer.Timers.startNoLock_spec (wf.readClock now) (x := i) stopped now
      exact ⟨_, _, run.trans inserted⟩
  obtain ⟨wf', timer⟩ := wf.start start
  dsimp only
  rw [start]
  refine ⟨_, rfl, h.setProgram sleeper wf' fun j ne => ?_, ⟨h.wired.inv.sched.live,
    .inl ⟨rfl, user⟩⟩, ?_⟩
  · rw [ehTimerStart_other ne start]
    exact Function.update_of_ne ne ..
  · dsimp only
    rw [timer, own, sleepTimer]
    by_cases nonneg : 0 ≤ interval
    · rw [if_pos ⟨nonneg, rfl⟩, if_pos nonneg, Timer.Timers.armed, Function.update_self, own]
    · rw [if_neg fun both => nonneg both.1, if_neg nonneg, own]

end Sleep

/-- `eh_usleep` comes to its wait. Whatever the others then do that do not have its timer, the
task is asleep, with the timer in the tree for the end of its time, until a check reads the
clock at or behind this end; with an interval below zero, which no timer takes, it sleeps for
good. -/
theorem ehUsleep_not_early {T O P W C A : Type} [DecidableEq T] [DecidableEq O] [DecidableEq P]
    (sys : System T O W C A) (clock : Clockwork T O) (main : T) (world : W)
    (timer : Nat → Timer.EhEventTimer) (x : Timed T O P W C A)
    (reachable : x.Reachable sys clock main world timer) (i : Nat) (c : C)
    (sleeper : Sleeper sys clock i c) (usec now : Nat) (positive : usec ≠ 0)
    (user : x.eh.point x.eh.self = .user)
    (fresh : x.eh.events.receptors (.object (clock.event i)) = [])
    (idle : (x.timers.timer i).running = false) :
    let interval := sleepInterval clock.clocksPerSec usec
    let expire := (now + Timer.toClock interval) % Timer.clockSpan
    ∃ x', x.ehUsleep clock i c usec now = some (x', some (sleepWait c)) ∧
      ∀ ls y, Run (fun x₁ l y => x₁.Private clock x.eh.self c i l ∧
          x₁.step sys clock l = some y) x' ls y →
        (0 ≤ interval ∧ ∃ fuel time, .check fuel time ∈ ls ∧
          Timer.ehDiffTime expire time ≤ 0) ∨
        y.eh.Sleeps x.eh.self c ∧
          (0 ≤ interval → i ∈ y.timers.nodes ∧ (y.timers.timer i).expire = expire) ∧
          (interval < 0 → i ∉ y.timers.nodes) := by
  intro interval expire
  obtain ⟨x', call, ok, sleeps⟩ := reachable.ok.ehUsleep sleeper positive now user fresh idle
  refine ⟨x', call, fun ls y run => ?_⟩
  obtain ⟨ok', asleep⟩ := sleeps.run ok sleeper run
  rcases asleep with asleep | due
  · refine .inr ⟨asleep.eh, fun nonneg => ?_, fun negative mem => ?_⟩
    · have timer := asleep.timer
      rw [sleepTimer, if_pos nonneg] at timer
      exact ⟨(ok'.agrees.wf.running i).mp (by rw [timer]), by rw [timer]⟩
    · have runs := (ok'.agrees.wf.running i).mpr mem
      rw [asleep.timer, sleepTimer, if_neg (not_le.mpr negative)] at runs
      cases runs
  · exact .inl due

/-- The timers of the waits are those of `evenStacks`, and each other timer has its own event. -/
def oddTimers : Clockwork Nat Nat where
  clocksPerSec := evenStacks.clocksPerSec
  timeoutTimer := evenStacks.timeoutTimer
  owner := evenStacks.owner
  owner_iff := evenStacks.owner_iff
  event i := i

def plainEvents : System Nat Nat Unit Nat Empty where
  dispatchCntPerPoll := 4
  event c := c
  condition _ := none
  finish _ _ _ world := world
  act a := nomatch a
  fromTask a := nomatch a
  fromInterrupt a := nomatch a

theorem sleeper_one : Sleeper plainEvents oddTimers 1 1 where
  program := rfl
  event := rfl
  plain := rfl
  alone _ eq := eq
  quiet {a} := nomatch a

/-- The main task starts to sleep for 10 microseconds while the clock reads 5; a check while it
reads 14 finds nothing. -/
theorem ehUsleep_not_early_ten : ∃ (x y : Timed Nat Nat Unit Unit Nat Empty) (ls : _),
    Run (fun x l y => x.Private oddTimers 0 1 1 l ∧
      x.step plainEvents oddTimers l = some y) x ls y ∧ .check 1 14 ∈ ls ∧
    y.eh.Sleeps 0 1 ∧ 1 ∈ y.timers.nodes ∧ (y.timers.timer 1).expire = 15 := by
  have reachable : (Timed.init 0 () fun _ => ⟨0, 0, 0, false⟩ :
      Timed Nat Nat Unit Unit Nat Empty).Reachable plainEvents oddTimers 0 () _ :=
    ⟨[], .nil _⟩
  obtain ⟨x, call, sleeps⟩ := ehUsleep_not_early plainEvents oddTimers 0 () _ _ reachable 1 1
    sleeper_one 10 5 (by decide) rfl rfl rfl
  have others : ∀ {s : Eh Nat Nat Unit Unit Nat Empty} {l : Label Nat Nat Unit Nat Empty},
      (∀ g, l ≠ .signal g) → s.point 0 ≠ .user → s.Private 0 1 1 l := fun calm busy =>
    ⟨fun g eq => absurd eq (calm g), fun _ user => absurd user busy⟩
  obtain ⟨y, run⟩ : ∃ y, Run (fun (x : Timed Nat Nat Unit Unit Nat Empty) l y =>
      x.Private oddTimers 0 1 1 l ∧ x.step plainEvents oddTimers l = some y) x
      [.kernel (.wait (sleepWait 1)) 6, .kernel .go 6, .kernel .go 7, .check 1 14] y := by
    cases call
    apply Exists.intro
    apply Run.cons ⟨⟨by simp, fun _ _ => .inr rfl⟩, rfl⟩
    apply Run.cons ⟨others (by simp) (by decide), rfl⟩
    apply Run.cons ⟨others (by simp) (by decide), rfl⟩
    exact Run.single ⟨trivial, rfl⟩
  rcases sleeps _ _ run with ⟨-, fuel, time, mem, due⟩ | ⟨asleep, timer, -⟩
  · exfalso
    simp only [List.mem_cons, reduceCtorEq, TimedLabel.check.injEq, List.not_mem_nil, or_false,
      false_or] at mem
    obtain ⟨rfl, rfl⟩ := mem
    exact absurd due (by decide)
  · exact ⟨_, _, _, run, by simp, asleep, (timer (by decide)).1, (timer (by decide)).2⟩

end EventHub.Kernel
