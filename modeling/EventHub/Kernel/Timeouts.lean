import EventHub.Kernel.Flow
import EventHub.Kernel.Wiring

/-! The timeout timer of a wait, as far as the kernel knows of it. While the task may go to
sleep in the wait, the timer runs, or it has fired and the task has been told. -/

namespace EventHub.Kernel
open Library Event

section Code
variable {T O P W C A : Type}

def Point.deadline : Point T P C A → Option (Wait T P C)
  | .waitAdd w => if w.timed then some w else none
  | p => p.waits.filter Wait.timed

def Signal.event {E : Type} : Signal E → E
  | .notify e | .notifyAndReorder e _ | .clean e => e

/-- The timer of a task, what is linked to it, and what has reached the task. -/
structure TimerOk (s : Eh T O P W C A) (t : T) : Prop where
  running : s.timerRunning t = true → s.alive t = true ∧ (s.point t).timing = true
  linked : s.alive t = true → (s.point t).timing = true →
    .timer t ∈ s.events.receptors (.timer t)
  refused : ∀ {w}, s.timerRunning t = true → (s.point t).deadline = some w → 0 ≤ w.timeout
  fired : ∀ {w}, s.alive t = true → (s.point t).deadline = some w → 0 ≤ w.timeout →
    s.timerRunning t = true ∨ (s.events.flags (.timer t)).trigger = true
  told : ∀ {w}, s.alive t = true → (s.point t).deadline = some w →
    (s.events.flags (.timer t)).any = true → s.reached t = true
  /-- `eh_epoll_wait` takes a timeout below zero for no wait at all. -/
  epoll : ∀ {w q n}, s.alive t = true →
    s.point t = .waitTimer w ∨ (s.point t).deadline = some w → w.caller = .epoll q n →
      0 < w.timeout

structure TimerSame (t : T) (s s' : Eh T O P W C A) : Prop where
  receptors : s'.events.receptors (.timer t) = s.events.receptors (.timer t)
  flags : s'.events.flags (.timer t) = s.events.flags (.timer t)
  running : s'.timerRunning t = s.timerRunning t

structure TimerAside (t : T) (s s' : Eh T O P W C A) : Prop extends TimerSame t s s' where
  reached : s.reached t = true → s'.reached t = true

end Code

variable {T O P W C A : Type} {sys : System T O W C A} {s s' s'' : Eh T O P W C A}
  {l : Label T O P C A} {t : T} {w : Wait T P C} {k : After T P C}

theorem Point.deadline_timing {p : Point T P C A} (h : p.deadline = some w) :
    p.timing = true ∧ w.timed = true := by
  have inLoop : p.waits.filter Wait.timed = some w → p.waits.any Wait.timed = true ∧
      w.timed = true := by
    intro eq
    obtain ⟨waits, timed⟩ := Option.filter_eq_some_iff.mp eq
    exact ⟨by rw [waits]; exact timed, timed⟩
  cases p with
  | waitAdd v =>
    rw [Point.deadline] at h
    split at h
    · next timed =>
      cases h
      exact ⟨timed, timed⟩
    · cases h
  | waitEnd v ret => cases h
  | _ => exact inLoop h

theorem TimerSame.trans (h : TimerSame t s s') (h' : TimerSame t s' s'') : TimerSame t s s'' :=
  ⟨h'.receptors.trans h.receptors, h'.flags.trans h.flags, h'.running.trans h.running⟩

namespace TimerAside

theorem refl (t : T) (s : Eh T O P W C A) : TimerAside t s s := ⟨⟨rfl, rfl, rfl⟩, fun h => h⟩

theorem trans (h : TimerAside t s s') (h' : TimerAside t s' s'') : TimerAside t s s'' :=
  ⟨h.toTimerSame.trans h'.toTimerSame, fun reached => h'.reached (h.reached reached)⟩

theorem of_eq (events : s'.events = s.events) (running : s'.timerRunning = s.timerRunning)
    (reached : s'.reached = s.reached) : TimerAside t s s' :=
  ⟨⟨by rw [events], by rw [events], by rw [running]⟩, fun h => by rwa [reached]⟩

variable [DecidableEq T]

theorem setPoint (h : TimerAside t s s') (u : T) (p : Point T P C A) :
    TimerAside t s (s'.setPoint u p) :=
  ⟨⟨h.receptors, h.flags, h.running⟩, h.reached⟩

variable [DecidableEq O] [DecidableEq P]

theorem signal (linked : ∀ e, .timer t ∈ s.events.receptors e → e = .timer t)
    (g : Signal (EhEvent T O)) (other : g.event ≠ .timer t) : TimerAside t s (s.signal g) := by
  have out : .timer t ∉ s.events.receptors g.event := fun mem => other (linked _ mem)
  cases g with
  | notify e =>
    rw [Signal.event] at out
    refine ⟨⟨?_, ?_, rfl⟩, fun reached => by simp [Eh.signal, Eh.reach, reached]⟩
    · exact congrFun (s.events.ehEventNotify_receptors e) _
    · rw [Eh.signal, Eh.reach, Events.ehEventNotify, Events.foldl_notify_flags, if_neg out]
  | notifyAndReorder e num =>
    rw [Signal.event] at out other
    refine ⟨⟨?_, ?_, rfl⟩, fun reached => by simp [Eh.signal, Eh.reach, reached]⟩
    · rw [Eh.signal, Eh.reach, Events.ehEventNotifyAndReorder_receptors,
        Function.update_of_ne (Ne.symm other)]
    · rw [Eh.signal, Eh.reach, Events.ehEventNotifyAndReorder, Events.foldl_notify_flags,
        Events.reordered, if_neg fun mem => out (List.mem_of_mem_take mem)]
  | clean e =>
    rw [Signal.event] at out other
    refine ⟨⟨?_, ?_, rfl⟩, fun reached => by simp [Eh.signal, Eh.reach, reached]⟩
    · rw [Eh.signal, Eh.reach, Events.ehEventClean_receptors,
        Function.update_of_ne (Ne.symm other)]
    · rw [Eh.signal, Eh.reach, Events.ehEventClean, Events.foldl_clean_flags, if_neg out]

theorem perform (linked : ∀ e, .timer t ∈ s.events.receptors e → e = .timer t) (a : A) :
    TimerAside t s (s.perform sys a) := by
  rw [Eh.perform]
  split
  · exact of_eq rfl rfl rfl
  · next g _ =>
    have other : (g.map .object : Signal (EhEvent T O)).event ≠ .timer t := by
      cases g <;> simp [Signal.map, Signal.event]
    have same := signal (s := { s with world := (sys.act a s.self s.world).world }) linked
      (g.map .object) other
    exact ⟨⟨same.receptors, same.flags, same.running⟩, same.reached⟩

end TimerAside

variable [DecidableEq T]

theorem continueAt_timer (step : s.continueAt k = some s') : TimerAside t s s' := by
  cases k with
  | finished => cases step
  | _ =>
    cases step
    exact .of_eq rfl rfl rfl

theorem autoDestruct_timer (x : Eh T O P W C A) (pos : Node T) (idle : Bool) (k : After T P C) :
    TimerAside t x (x.autoDestruct pos idle k) := by
  rw [Eh.autoDestruct]
  split
  · exact .of_eq rfl rfl rfl
  · exact .of_eq rfl rfl rfl

theorem startWait_timer (x : Eh T O P W C A) (w : Wait T P C) : TimerAside t x (x.startWait w) := by
  rw [Eh.startWait]
  split_ifs <;> exact .of_eq rfl rfl rfl

variable [DecidableEq O] [DecidableEq P]

theorem read_timer (s : Eh T O P W C A) (q : P) (n : Nat) :
    TimerAside t s { s with events := (s.events.ehEpollPendingReadOnLock q n).2 } := by
  obtain ⟨receptors, flags, -⟩ := readPending_frame q s.events (s.events.epoll q).pending n
  exact ⟨⟨congrFun receptors _, flags _ (by simp), rfl⟩, fun h => h⟩

theorem enter_timer (sys : System T O W C A) (s : Eh T O P W C A) (w : Wait T P C) :
    TimerAside t s (s.enter sys w) := by
  have world : ∀ world, TimerAside t s { s with world := world } := fun _ => .of_eq rfl rfl rfl
  rw [Eh.enter]
  split
  · split_ifs
    · exact .of_eq rfl rfl rfl
    · exact .of_eq rfl rfl rfl
    · exact (read_timer s _ _).setPoint _ _
  all_goals
    split
    · exact .of_eq rfl rfl rfl
    · exact (world _).trans (startWait_timer _ w)
    · exact startWait_timer s w

theorem check_timer (sys : System T O W C A) (s : Eh T O P W C A) (w : Wait T P C) :
    TimerAside t s (s.check sys w).2 := by
  have world : ∀ world, TimerAside t s { s with world := world } := fun _ => .of_eq rfl rfl rfl
  rw [Eh.check]
  split
  · dsimp only
    split <;> exact read_timer s _ _
  all_goals
    dsimp only
    split
    · split_ifs
      · exact .refl t s
      · exact world _
      · exact world _
    · split_ifs <;> exact .refl t s

theorem leaveWait_timer (x : Eh T O P W C A) (w : Wait T P C) (ret : Int) :
    TimerSame t x (x.leaveWait sys w ret) := by
  have out : ∀ e, w.event sys = some e → .timer t ≠ e := by
    rintro e event rfl
    exact Wait.event_ne_timer w t event
  rw [Eh.leaveWait]
  refine ⟨?_, ?_, rfl⟩
  · dsimp only [Eh.setPoint]
    split
    · rfl
    all_goals
      split
      · next e event => simp [Events.removeReceptor, out e event]
      · rfl
  · dsimp only [Eh.setPoint]
    split
    · rfl
    all_goals split <;> rfl

omit [DecidableEq O] in
theorem park_timer (x : Eh T O P W C A) (w : Wait T P C) : TimerSame t x (x.park w) := by
  rw [Eh.park]
  refine ⟨?_, ?_, rfl⟩
  · dsimp only [Eh.setPoint]
    split <;> rfl
  · dsimp only [Eh.setPoint]
    split <;> rfl

theorem loopWait_same (s : Eh T O P W C A) (w : Wait T P C) :
    TimerSame t s (s.loopWait sys w) := by
  have checked := check_timer (t := t) sys s w
  rw [Eh.loopWait]
  cases result : s.check sys w with
  | mk ret x =>
    rw [result] at checked
    dsimp only at checked ⊢
    cases ret with
    | some ret => exact checked.toTimerSame.trans (leaveWait_timer x w ret)
    | none => exact checked.toTimerSame.trans (park_timer x w)

theorem loopWait_timer (w : Wait T P C) (ne : t ≠ s.self) :
    TimerAside t s (s.loopWait sys w) := by
  refine ⟨loopWait_same s w, fun reached => ?_⟩
  have checked := check_stirred sys s w
  have self := checked.currentTask
  rw [Eh.loopWait]
  cases result : s.check sys w with
  | mk ret x =>
    rw [result] at checked self
    dsimp only at checked self ⊢
    rw [← self] at ne
    have kept := checked.reachedKept reached
    cases ret with
    | some ret => simpa [Eh.leaveWait, Eh.setPoint, ne] using kept
    | none => simpa [Eh.park, Eh.setPoint, ne] using kept

theorem pollStep_timer (linked : ∀ e, .timer t ∈ s.events.receptors e → e = .timer t)
    {pp : PollPoint T} {idle : Bool} (step : s.pollStep idle k pp = some s') :
    TimerAside t s s' := by
  cases pp with
  | start =>
    rw [Eh.pollStep] at step
    split at step <;> cases step
    · exact autoDestruct_timer s _ idle k
    · exact .of_eq rfl rfl rfl
  | destroy pos n =>
    cases pos with
    | task u =>
      cases step
      exact (TimerAside.signal linked (.clean (.task u)) (by simp [Signal.event])).setPoint _ _
    | _ => cases step
  | unlink pos n =>
    cases pos with
    | task u =>
      cases step
      have destroyed : TimerAside t s (s.destroy u) := .of_eq rfl rfl rfl
      exact destroyed.trans (autoDestruct_timer _ n idle k)
    | _ => cases step

theorem go_timer (inv : Invariant sys s) (step : s.go sys = some s')
    (away : t = s.self → ∀ w, s.point s.self ≠ .waitTimer w ∧ s.point s.self ≠ .waitLoop w ∧
      ∀ ret, s.point s.self ≠ .waitEnd w ret) : TimerAside t s s' := by
  have linked : ∀ e, .timer t ∈ s.events.receptors e → e = .timer t := fun e mem =>
    ((inv.event.task t).timer mem).2.2
  have signals : ∀ (u : T) (g : Signal (EhEvent T O)), g.event = .task u →
      TimerAside t s (s.signal g) := fun u g eq => .signal linked g (by simp [eq])
  rw [Eh.go] at step
  split at step
  · cases step
    exact .of_eq rfl rfl rfl
  · cases step
  · cases step
    exact (TimerAside.perform linked _).setPoint _ _
  · next at_ =>
    have ne : t ≠ s.self := fun own => (away own _).1 at_
    cases step
    rw [Eh.startTimer]
    exact ⟨⟨by simp [Eh.setPoint, ne], by simp [Eh.setPoint, ne], by simp [Eh.setPoint, ne]⟩,
      fun h => h⟩
  · cases step
    rw [Eh.linkReceptor]
    split
    · next e event =>
      have other : .timer t ≠ e := by
        rintro rfl
        exact Wait.event_ne_timer _ t event
      refine ⟨⟨?_, ?_, rfl⟩, fun h => h⟩
      · simp [Eh.setPoint, Events.addReceptor, Events.setFlags, other]
      · simp [Eh.setPoint, Events.addReceptor, Events.setFlags]
    · exact .of_eq rfl rfl rfl
  · next w at_ =>
    have ne : t ≠ s.self := fun own => (away own w).2.1 at_
    cases step
    exact loopWait_timer w ne
  · next at_ =>
    have ne : t ≠ s.self := fun own => (away own _).2.2 _ at_
    cases step
    rw [Eh.endWait]
    exact ⟨⟨by simp [Eh.setPoint, Events.removeReceptor, ne], rfl, by simp [Eh.setPoint, ne]⟩,
      fun h => h⟩
  · cases step
    rw [Eh.afterWait]
    split
    · split
      · exact .of_eq rfl rfl rfl
      · exact (signals _ _ rfl).setPoint s.self _
    · exact .of_eq rfl rfl rfl
    · exact .of_eq rfl rfl rfl
  · cases step
    exact .of_eq rfl rfl rfl
  · cases step
    exact (signals _ _ rfl).setPoint s.self _
  · cases step
    rw [Eh.nextStep]
    split
    · exact .of_eq rfl rfl rfl
    · exact .of_eq rfl rfl rfl
  · exact pollStep_timer linked step
  · rw [Eh.dispatch] at step
    split at step
    · cases step
      exact .of_eq rfl rfl rfl
    · split at step
      · cases step
        exact .of_eq rfl rfl rfl
      · cases step
  · rw [Eh.idleCheck] at step
    split at step
    · have moved := continueAt_timer (t := t) step
      exact ⟨⟨moved.receptors, moved.flags, moved.running⟩, moved.reached⟩
    · cases step
      exact .of_eq rfl rfl rfl
  · have moved := continueAt_timer (t := t) step
    exact ⟨⟨moved.receptors, moved.flags, moved.running⟩, moved.reached⟩

theorem user_timer (inv : Invariant sys s) (timers : s.TimersApart) (step : s.user sys l = some s')
    (other : ∀ system auto, l ≠ .create t system auto) : TimerAside t s s' := by
  have linked : ∀ e, .timer t ∈ s.events.receptors e → e = .timer t := fun e mem =>
    ((inv.event.task t).timer mem).2.2
  cases Eh.user_cases step with
  | wait => exact enter_timer sys s _
  | @act a => exact (TimerAside.perform linked a).setPoint s.self _
  | @create u system auto =>
    have ne : t ≠ u := fun eq => other system auto (eq ▸ rfl)
    refine ⟨⟨?_, rfl, rfl⟩, fun reached => ?_⟩
    · simp [Eh.create, Eh.setPoint]
    · simpa [Eh.create, Eh.setPoint, ne] using reached
  | yield => exact .of_eq rfl rfl rfl
  | ret => exact .of_eq rfl rfl rfl
  | exitMain => exact .of_eq rfl rfl rfl
  | exit =>
    have same := TimerAside.signal (s := { s with sched := s.sched.setState s.self .finish })
      linked (.notify (.task s.self)) (by simp [Signal.event])
    exact ⟨⟨same.receptors, same.flags, same.running⟩, same.reached⟩
  | @epollAdd q e allocated =>
    have ne : .timer t ≠ e := by
      rintro rfl
      cases allocated
    rw [Eh.ehEpollAddEvent]
    split
    · exact .refl t s
    · refine ⟨⟨?_, ?_, rfl⟩, fun h => h⟩
      · simp [Events.addReceptor, Events.setFlags, ne]
      · simp [Events.addReceptor, Events.setFlags]
  | epollDel q e =>
    rw [Eh.ehEpollDelEvent]
    split
    · next registered =>
      have ne : .timer t ≠ e := by
        rintro rfl
        rw [timers] at registered
        cases registered
      refine ⟨⟨?_, rfl, rfl⟩, fun h => h⟩
      simp [Events.removeReceptor, Events.setEpoll, ne]
    · exact .refl t s

theorem step_timer (inv : Invariant sys s) (timers : s.TimersApart)
    (step : s.step sys l = some s')
    (away : l = .go → t = s.self → ∀ w, s.point s.self ≠ .waitTimer w ∧
      s.point s.self ≠ .waitLoop w ∧ ∀ ret, s.point s.self ≠ .waitEnd w ret)
    (other : ∀ system auto, l ≠ .create t system auto) (early : l ≠ .expire t) :
    TimerAside t s s' := by
  have linked : ∀ e, .timer t ∈ s.events.receptors e → e = .timer t := fun e mem =>
    ((inv.event.task t).timer mem).2.2
  have acts : ∀ a calls, TimerAside t s { s.perform sys a with calls := calls } := fun a calls =>
    (TimerAside.perform linked a).trans (.of_eq rfl rfl rfl)
  -- the event of a timer is named by nobody
  have named : ∀ g, l = .signal g → g.event ≠ .timer t := by
    rintro g rfl eq
    cases g with
    | _ =>
      rw [Signal.event] at eq
      subst eq
      cases step
  cases Eh.step_cases step with
  | go step => exact go_timer inv step (away rfl)
  | user at_ step => exact user_timer inv timers step other
  | signal g => exact .signal linked g (named g rfl)
  | wakeUp live => exact .of_eq rfl rfl rfl
  | expire u =>
    have ne : t ≠ u := fun eq => early (eq ▸ rfl)
    rw [Eh.expire]
    split
    · have same := TimerAside.signal (t := t)
        (s := { s with timerRunning := Function.update s.timerRunning u false })
        linked (.notify (.timer u)) (by simpa [Signal.event] using Ne.symm ne)
      exact ⟨⟨same.receptors, same.flags, same.running.trans (Function.update_of_ne ne ..)⟩,
        same.reached⟩
    · exact .refl t s
  | interrupt => exact acts _ _
  | interruptGo => exact acts _ _

/-! One step keeps what holds of the timer. -/

theorem Flow.timing {p q : Point T P C A} (h : Flow sys s p q)
    (away : ∀ w, p ≠ .waitTimer w ∧ p ≠ .waitLoop w ∧ ∀ ret, p ≠ .waitEnd w ret) :
    q.timing = p.timing ∧ q.deadline = p.deadline ∧ ∀ w, q ≠ .waitTimer w := by
  cases h with
  | timer plain => exact absurd rfl (away _).1
  | epollTimer caller => exact absurd rfl (away _).1
  | leaves _ => exact absurd rfl (away _).2.1
  | parks on => exact absurd rfl (away _).2.1
  | ends => exact absurd rfl ((away _).2.2 _)
  | @add w =>
    refine ⟨rfl, ?_, by simp⟩
    cases timed : w.timed <;> simp [Point.deadline, Point.waits, Option.filter, timed]
  | @polls k => cases k <;> exact ⟨rfl, rfl, by simp⟩
  | @skips k => cases k <;> exact ⟨rfl, rfl, by simp⟩
  | @polling pp qq idle k => cases k <;> exact ⟨rfl, rfl, by simp⟩
  | @polled pp idle k => cases k <;> cases idle <;> exact ⟨rfl, rfl, by simp [pollEnd]⟩
  | @idles k => cases k <;> exact ⟨rfl, rfl, by simp⟩
  | @switches k => cases k <;> exact ⟨rfl, rfl, by simp⟩
  | @stays k => cases k <;> exact ⟨rfl, rfl, by simp⟩
  | @resumes k p eq => cases k <;> cases eq <;> exact ⟨rfl, rfl, by simp⟩
  | @returns k p eq => cases k <;> cases eq <;> exact ⟨rfl, rfl, by simp⟩
  | _ => exact ⟨rfl, rfl, by simp⟩

omit [DecidableEq T] [DecidableEq O] [DecidableEq P] in
theorem Calls.timing {p : Point T P C A} (h : Calls sys s l p) :
    p.timing = false ∧ p.deadline = none ∧
      ∀ w, p = .waitTimer w → ∀ q n, w.caller = .epoll q n → 0 < w.timeout := by
  cases h with
  | @wait w p joins entry =>
    cases entry with
    | forever forever plain =>
      have timed : w.timed = false := by simp [Wait.timed, forever]
      exact ⟨timed, by simp [Point.deadline, timed], by simp⟩
    | epoll caller forever =>
      have timed : w.timed = false := by simp [Wait.timed, forever]
      exact ⟨timed, by simp [Point.deadline, Point.waits, Option.filter, timed], by simp⟩
    | timed notForever notZero later =>
      refine ⟨rfl, rfl, fun v eq => ?_⟩
      cases eq
      exact later
    | _ => exact ⟨rfl, rfl, by simp⟩
  | _ => exact ⟨rfl, rfl, by simp⟩

omit [DecidableEq T] [DecidableEq O] [DecidableEq P] in
theorem timing_unfinished (inv : Invariant sys s) (live : s.alive t = true)
    (timing : (s.point t).timing = true) : t = s.self ∨ s.sched.state t ≠ .finish := by
  by_cases own : t = s.self
  · exact .inl own
  · right
    have parked := inv.sched.parked live own
    have admits := inv.sched.state live own
    cases at_ : s.point t with
    | fresh =>
      rw [at_] at timing
      cases timing
    | resumed k =>
      rw [at_] at timing admits
      cases k with
      | wait w =>
        rcases admits with st | st <;> simp [st]
      | _ => cases timing
    | _ =>
      rw [at_] at parked
      cases parked

theorem step_timing (inv : Invariant sys s) (step : s.step sys l = some s')
    (live : s.alive t = true)
    (away : l = .go → t = s.self → ∀ w, s.point s.self ≠ .waitTimer w ∧
      s.point s.self ≠ .waitLoop w ∧ ∀ ret, s.point s.self ≠ .waitEnd w ret) :
    (s'.point t).timing = (s.point t).timing ∧ (s'.point t).deadline = (s.point t).deadline ∧
      ∀ w, s'.point t = .waitTimer w → s.point t = .waitTimer w ∨
        ∀ q n, w.caller = .epoll q n → 0 < w.timeout := by
  by_cases own : t = s.self
  · subst own
    cases step_moved inv step with
    | go flow point =>
      rw [point, Function.update_self]
      obtain ⟨timing, deadline, other⟩ := flow.timing fun w => away rfl rfl w
      exact ⟨timing, deadline, fun w eq => absurd eq (other w)⟩
    | calls at_ calls point self =>
      obtain ⟨timing, deadline, later⟩ := calls.timing
      rw [point, at_, timing, deadline]
      exact ⟨rfl, rfl, fun w eq => .inr (later w eq)⟩
    | outside out point =>
      rw [point]
      exact ⟨rfl, rfl, fun _ => .inl⟩
  · have busy : s.point t ≠ .user := fun user => by
      have parked := inv.sched.parked live own
      rw [user] at parked
      cases parked
    rw [(step_aside inv live step (fun _ => own) busy).point]
    exact ⟨rfl, rfl, fun _ => .inl⟩

theorem startTimer_timing (inv : Invariant sys s) (at_ : s.point s.self = .waitTimer w) :
    ((s.startTimer w).point s.self).timing = true ∧
      ((s.startTimer w).point s.self).deadline = some w := by
  have admits := inv.sched.selfState
  rw [at_] at admits
  have timed := admits.2
  rw [Eh.startTimer, setPoint_point]
  split
  · exact ⟨timed, by simp [Point.deadline, Point.waits, Option.filter, timed]⟩
  all_goals exact ⟨timed, by simp [Point.deadline, timed]⟩

namespace TimerOk

omit [DecidableEq T] [DecidableEq O] [DecidableEq P] in
theorem aside (h : TimerOk s t) (same : TimerAside t s s')
    (dead : s.alive t = false → s'.alive t = false)
    (live : s.alive t = true → (s.point t).timing = true → s'.alive t = true)
    (point : s.alive t = true → (s'.point t).timing = (s.point t).timing ∧
      (s'.point t).deadline = (s.point t).deadline ∧
      ∀ w, s'.point t = .waitTimer w → s.point t = .waitTimer w ∨
        ∀ q n, w.caller = .epoll q n → 0 < w.timeout) : TimerOk s' t := by
  have before : s'.alive t = true → s.alive t = true := by
    intro now
    by_contra was
    rw [dead (Bool.not_eq_true _ ▸ was)] at now
    cases now
  refine ⟨fun runs => ?_, fun now timing => ?_, fun runs deadline => ?_,
    fun now deadline positive => ?_, fun now deadline any => ?_, fun now at_ caller => ?_⟩
  · rw [same.running] at runs
    obtain ⟨was, timing⟩ := h.running runs
    exact ⟨live was timing, (point was).1.trans timing⟩
  · rw [same.receptors]
    exact h.linked (before now) ((point (before now)).1.symm.trans timing)
  · rw [same.running] at runs
    exact h.refused runs ((point (h.running runs).1).2.1.symm.trans deadline)
  · rw [same.running, same.flags]
    exact h.fired (before now) ((point (before now)).2.1.symm.trans deadline) positive
  · rw [same.flags] at any
    exact same.reached (h.told (before now) ((point (before now)).2.1.symm.trans deadline) any)
  · obtain ⟨-, deadline, later⟩ := point (before now)
    rcases at_ with at_ | at_
    · rcases later _ at_ with old | positive
      · exact h.epoll (before now) (.inl old) caller
      · exact positive _ _ caller
    · exact h.epoll (before now) (.inr (deadline.symm.trans at_)) caller

theorem startTimer (h : TimerOk s s.self) (inv : Invariant sys s)
    (at_ : s.point s.self = .waitTimer w) : TimerOk (s.startTimer w) s.self := by
  obtain ⟨timing, deadline⟩ := startTimer_timing inv at_
  have runs : (s.startTimer w).timerRunning s.self = decide (0 ≤ w.timeout) := by
    simp [Eh.startTimer, Eh.setPoint]
  have clear : (s.startTimer w).events.flags (.timer s.self) = .clear := by
    simp [Eh.startTimer, Eh.setPoint]
  refine ⟨fun _ => ⟨inv.sched.live, timing⟩, fun _ _ => ?_, fun runs' eq => ?_,
    fun _ eq positive => ?_, fun _ _ any => ?_, fun _ next caller => ?_⟩
  · simp [Eh.startTimer, Eh.setPoint]
  · cases deadline.symm.trans eq
    rw [runs] at runs'
    exact of_decide_eq_true runs'
  · cases deadline.symm.trans eq
    rw [runs]
    exact .inl (decide_eq_true positive)
  · rw [clear] at any
    cases any
  · rcases next with eq | eq
    · rw [eq] at deadline
      cases deadline
    · cases deadline.symm.trans eq
      exact h.epoll inv.sched.live (.inl at_) caller

omit [DecidableEq T] [DecidableEq O] [DecidableEq P] in
theorem calm (stopped : s.timerRunning t = false) (timing : (s.point t).timing = false)
    (starting : ∀ w, s.point t ≠ .waitTimer w) : TimerOk s t := by
  have running : s.timerRunning t ≠ true := Bool.eq_false_iff.mp stopped
  have outside : (s.point t).timing ≠ true := Bool.eq_false_iff.mp timing
  have none : ∀ w, (s.point t).deadline ≠ some w := fun w eq =>
    outside (Point.deadline_timing eq).1
  exact {
    running := fun runs => absurd runs running
    linked := fun _ inside => absurd inside outside
    refused := fun runs => absurd runs running
    fired := fun _ eq => absurd eq (none _)
    told := fun _ eq => absurd eq (none _)
    epoll := fun _ eq => eq.elim (fun eq => absurd eq (starting _)) fun eq => absurd eq (none _) }

theorem endWait (ret : Int) : TimerOk (s.endWait w ret) s.self := by
  have at_ : (s.endWait w ret).point s.self = .returned w ret := setPoint_point _ _ _
  apply calm
  · simp [Eh.endWait, Eh.setPoint]
  · rw [at_]
    rfl
  · intro v eq
    rw [at_] at eq
    cases eq

theorem check_quiet (goes : (s.check sys w).1 = none) (timed : w.timed = true) :
    (s.events.flags (.timer s.self)).any = false := by
  have quiet : ∀ x : Eh T O P W C A, x.self = s.self →
      x.events.flags (.timer s.self) = s.events.flags (.timer s.self) →
      x.checkTimer w = none → (s.events.flags (.timer s.self)).any = false := by
    intro x self flags none
    rw [Eh.checkTimer, self] at none
    rw [flags, timed, Bool.true_and] at none
    split at none
    · cases none
    · next any => exact Bool.not_eq_true _ ▸ any
  obtain ⟨caller, timeout⟩ := w
  rw [Eh.check] at goes
  cases caller with
  | epoll q n =>
    dsimp only at goes
    split at goes
    · cases goes
    · have read := (read_timer (t := s.self) s q n).flags
      exact quiet { s with events := (s.events.ehEpollPendingReadOnLock q n).2 } rfl read goes
  | join u =>
    dsimp only [Eh.condition] at goes
    split at goes
    · cases goes
    · split at goes
      · cases goes
      · exact quiet _ rfl rfl goes
  | object c =>
    dsimp only at goes
    split at goes
    · split at goes
      · cases goes
      · split at goes
        · cases goes
        · exact quiet _ rfl rfl goes
    · split at goes
      · cases goes
      · exact quiet _ rfl rfl goes

theorem loopWait (h : TimerOk s s.self) (inv : Invariant sys s)
    (at_ : s.point s.self = .waitLoop w) : TimerOk (s.loopWait sys w) s.self := by
  have live := inv.sched.live
  have same : TimerSame s.self s (s.loopWait sys w) := loopWait_same s w
  obtain ⟨p, flow, point⟩ := loopWait_flow sys s w
  have at' : (s.loopWait sys w).point s.self = p := by rw [point, Function.update_self]
  have alive : (s.loopWait sys w).alive = s.alive := by
    have step : s.go sys = some (s.loopWait sys w) := by rw [Eh.go, at_]
    have kept := go_alive inv step
    rwa [at_] at kept
  have timing : p.timing = (s.point s.self).timing := by
    rw [at_]
    cases flow with
    | leaves _ => cases timed : w.timed <;> simp [Point.timing, Point.waits, timed]
    | parks on => rfl
  have deadline : ∀ {v}, p.deadline = some v →
      (s.check sys w).1 = none ∧ (s.point s.self).deadline = some v := by
    intro v eq
    cases flow with
    | leaves _ => split at eq <;> cases eq
    | parks on => exact ⟨on, by rw [at_]; exact eq⟩
  refine ⟨fun runs => ⟨?_, ?_⟩, fun _ now => ?_, fun runs eq => ?_, fun _ eq positive => ?_,
    fun _ eq any => ?_, fun _ eq caller => ?_⟩
  · rw [alive]
    exact live
  · rw [same.running] at runs
    rw [at', timing]
    exact (h.running runs).2
  · rw [same.receptors]
    rw [at', timing] at now
    exact h.linked live now
  · rw [same.running] at runs
    rw [at'] at eq
    exact h.refused runs (deadline eq).2
  · rw [same.running, same.flags]
    rw [at'] at eq
    exact h.fired live (deadline eq).2 positive
  · rw [at'] at eq
    obtain ⟨on, eq⟩ := deadline eq
    have timed := (Point.deadline_timing eq).2
    rw [at_] at eq
    cases (Option.filter_eq_some_iff.mp (show (some w).filter Wait.timed = some _ from eq)).1
    rw [same.flags, check_quiet on timed] at any
    cases any
  · rw [at'] at eq
    rcases eq with eq | eq
    · cases flow with
      | leaves _ => split at eq <;> cases eq
      | parks on => cases eq
    · exact h.epoll live (.inr (deadline eq).2) caller

theorem expire (h : TimerOk s t) (inv : Invariant sys s) : TimerOk (s.expire t) t := by
  have stirred := expire_stirred inv.event.owned t
  rw [Eh.expire] at stirred ⊢
  split
  · next runs =>
    rw [if_pos runs] at stirred
    obtain ⟨live, timing⟩ := h.running runs
    have mem := h.linked live timing
    have stopped : Function.update s.timerRunning t false t = false := Function.update_self ..
    refine ⟨fun runs' => ?_, fun _ _ => ?_, fun runs' => ?_, fun _ _ _ => ?_, fun _ _ _ => ?_,
      h.epoll⟩
    · exact absurd runs' (by simp [Eh.signal, Eh.reach])
    · simpa [Eh.signal, Eh.reach] using mem
    · exact absurd runs' (by simp [Eh.signal, Eh.reach])
    · right
      simp [Eh.signal, Eh.reach, Events.ehEventNotify, Events.foldl_notify_flags, mem]
    · simp [Eh.signal, Eh.reach, mem]
  · exact h

omit [DecidableEq P] in
theorem create (h : TimerOk s t) (dead : s.alive t = false) (system auto : Bool) :
    TimerOk (s.create t system auto) t := by
  have stopped : s.timerRunning t = false := by
    by_contra runs
    rw [(h.running (Bool.not_eq_false _ ▸ runs)).1] at dead
    cases dead
  have at_ : (s.create t system auto).point t = .fresh := setPoint_point _ _ _
  apply calm
  · exact stopped
  · rw [at_]
    rfl
  · intro v eq
    rw [at_] at eq
    cases eq

theorem step (h : TimerOk s t) (inv : Invariant sys s) (timers : s.TimersApart)
    (step : s.step sys l = some s') : TimerOk s' t := by
  by_cases created : ∃ system auto, l = .create t system auto
  · obtain ⟨system, auto, rfl⟩ := created
    cases Eh.step_cases step with
    | user _ step =>
      cases Eh.user_cases step with
      | create _ _ dead => exact h.create dead system auto
  by_cases fires : l = .expire t
  · subst fires
    cases step
    exact h.expire inv
  by_cases looks : l = .go ∧ t = s.self ∧ ∃ w, s.point s.self = .waitTimer w ∨
      s.point s.self = .waitLoop w ∨ ∃ ret, s.point s.self = .waitEnd w ret
  · obtain ⟨rfl, rfl, w, at_ | at_ | ⟨ret, at_⟩⟩ := looks
    · rw [Eh.step, Eh.go, at_] at step
      cases step
      exact h.startTimer inv at_
    · rw [Eh.step, Eh.go, at_] at step
      cases step
      exact h.loopWait inv at_
    · rw [Eh.step, Eh.go, at_] at step
      cases step
      exact .endWait ret
  have away : l = .go → t = s.self → ∀ w, s.point s.self ≠ .waitTimer w ∧
      s.point s.self ≠ .waitLoop w ∧ ∀ ret, s.point s.self ≠ .waitEnd w ret := by
    intro go own w
    exact ⟨fun at_ => looks ⟨go, own, w, .inl at_⟩, fun at_ => looks ⟨go, own, w, .inr (.inl at_)⟩,
      fun ret at_ => looks ⟨go, own, w, .inr (.inr ⟨ret, at_⟩)⟩⟩
  have old : ∀ system auto, l ≠ .create t system auto := fun system auto eq =>
    created ⟨system, auto, eq⟩
  refine h.aside (step_timer inv timers step away old fires) (fun dead => ?_)
    (fun live timing => ?_) fun live => step_timing inv step live away
  · exact step_dead inv step dead old
  · exact step_alive inv step live (timing_unfinished inv live timing)

/-- Between its start and its end the timer stops only by expiring, and it stays that of the
same wait. -/
theorem step_running (h : TimerOk s t) (inv : Invariant sys s) (timers : s.TimersApart)
    (step : s.step sys l = some s') (early : l ≠ .expire t)
    (away : l = .go → t = s.self → ∀ w, s.point s.self ≠ .waitTimer w ∧
      ∀ ret, s.point s.self ≠ .waitEnd w ret) :
    s'.timerRunning t = s.timerRunning t ∧ (s.timerRunning t = true →
      ∀ w, (s'.point t).deadline = some w → (s.point t).deadline = some w) := by
  by_cases created : ∃ system auto, l = .create t system auto
  · obtain ⟨system, auto, rfl⟩ := created
    cases Eh.step_cases step with
    | user _ step =>
      cases Eh.user_cases step with
      | create _ _ dead =>
        exact ⟨rfl, fun runs => absurd (h.running runs).1 (by simpa using dead)⟩
  have old : ∀ system auto, l ≠ .create t system auto := fun system auto eq =>
    created ⟨system, auto, eq⟩
  by_cases looks : l = .go ∧ t = s.self ∧ ∃ w, s.point s.self = .waitLoop w
  · obtain ⟨rfl, rfl, w, at_⟩ := looks
    rw [Eh.step, Eh.go, at_] at step
    cases step
    refine ⟨(loopWait_same s w).running, fun _ v eq => ?_⟩
    obtain ⟨p, flow, point⟩ := loopWait_flow sys s w
    rw [point, Function.update_self] at eq
    rw [at_]
    cases flow with
    | leaves _ =>
      split at eq <;> cases eq
    | parks on => exact eq
  have apart : l = .go → t = s.self → ∀ w, s.point s.self ≠ .waitTimer w ∧
      s.point s.self ≠ .waitLoop w ∧ ∀ ret, s.point s.self ≠ .waitEnd w ret := fun go own w =>
    ⟨(away go own w).1, fun at_ => looks ⟨go, own, w, at_⟩, (away go own w).2⟩
  refine ⟨(step_timer inv timers step apart old early).running, fun runs v eq => ?_⟩
  exact (step_timing inv step (h.running runs).1 apart).2.1.symm.trans eq

omit [DecidableEq O] [DecidableEq P] in
theorem init (main : T) (world : W) (t : T) :
    TimerOk (Eh.init main world : Eh T O P W C A) t := by
  refine ⟨fun runs => ?_, fun _ timing => ?_, fun runs => ?_, fun _ eq => ?_, fun _ eq => ?_,
    fun _ eq _ => ?_⟩
  · cases runs
  · cases timing
  · cases runs
  · cases eq
  · cases eq
  · rcases eq with eq | eq <;> cases eq

end TimerOk

end EventHub.Kernel
