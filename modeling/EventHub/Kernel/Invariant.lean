import EventHub.Kernel.Signals

/-! What holds in every reachable state: the tasks and lists agree with the points at which the
tasks are, and so do the receptors. -/

namespace EventHub.Kernel
open Library Event

section Point
variable {T O P W C A : Type}

/-- The wait in whose loop the task is, `receptor` being linked. -/
def Point.waits : Point T P C A → Option (Wait T P C)
  | .waitLoop w => some w
  | .next (.wait w) | .poll _ _ (.wait w) | .nextLoop (.wait w) | .nextCheck (.wait w)
  | .resumed (.wait w) => some w
  | _ => none

/-- `receptor_timer` may be linked. -/
def Point.timing (p : Point T P C A) : Bool :=
  match p with
  | .waitAdd w => w.timed
  | .waitEnd _ _ => true
  | p => p.waits.any Wait.timed

/-- The points of the tasks that do not run. -/
def Point.parked : Point T P C A → Bool
  | .fresh | .resumed _ => true
  | _ => false

/-- The states that go with a stay in `eh_task_next`, `calm` being that of a task that does
not wait. -/
def After.admits (calm : TaskState) : After T P C → TaskState → Prop
  | .yield, st => st = calm
  | .finished, st => st = .finish
  | .wait _, st => st = .wait ∨ st = .ready

def Point.admits : Point T P C A → Bool → TaskState → Prop
  | .fresh, true, st => st = .runing
  | .fresh, false, st => st = .ready
  | .resumed k, true, st => st = .runing ∧ k ≠ .finished
  | .resumed k, false, st => k.admits .ready st
  | .next k, _, st | .poll _ _ k, _, st | .nextLoop k, _, st | .nextCheck k, _, st =>
    k.admits .runing st
  | .finishing, _, st => st = .finish
  | .waitTimer w, _, st => st = .runing ∧ w.timed = true
  | _, _, st => st = .runing

/-- The task that `eh_task_join` is called for. -/
def Wait.joined (w : Wait T P C) : Option T :=
  match w.caller with
  | .join u => some u
  | .object _ | .epoll _ _ => none

theorem Wait.joined_eq_some {w : Wait T P C} {u : T} :
    w.joined = some u ↔ w.caller = .join u := by
  rw [Wait.joined]
  cases w.caller <;> simp

def Point.joins : Point T P C A → Option T
  | .waitTimer w | .waitAdd w => w.joined
  | _ => none

def Point.target : Point T P C A → Option T
  | .waitEnd w ret | .returned w ret => if 0 ≤ ret then w.joined else none
  | .destroying u => some u
  | _ => none

def Point.cleaned : Point T P C A → Option T
  | .destroying u | .poll (.unlink (.task u) _) _ _ => some u
  | _ => none

def autoNode : List T → Node T
  | [] => .taskFinishAutoDestructListHead
  | u :: _ => .task u

/-- `pos` is the first task of its list and `n` what follows. -/
def PollOk (l : Home → List T) : Point T P C A → Prop
  | .poll (.destroy pos n) _ _ | .poll (.unlink pos n) _ _ =>
    ∃ u rest, l .autoDestruct = u :: rest ∧ pos = .task u ∧ n = autoNode rest
  | _ => True

theorem PollOk.congr {l l' : Home → List T} {p : Point T P C A} (h : PollOk l p)
    (same : l' .autoDestruct = l .autoDestruct) : PollOk l' p := by
  cases p with
  | poll pp idle k =>
    cases pp with
    | start => trivial
    | destroy pos n => simpa only [PollOk, same] using h
    | unlink pos n => simpa only [PollOk, same] using h
  | _ => trivial

theorem After.admits_woken (calm : TaskState) {k : After T P C} (h : k.admits calm .wait)
    (ne : calm ≠ .wait) : k.admits calm .ready := by
  cases k with
  | yield => exact absurd h.symm ne
  | finished => cases h
  | wait w => exact .inr rfl

theorem Point.admits_woken {p : Point T P C A} {b : Bool} (h : p.admits b .wait) :
    p.admits b .ready := by
  cases p with
  | fresh => cases b <;> cases h
  | resumed k =>
    cases b
    · exact After.admits_woken .ready h (by decide)
    · cases h.1
  | next k => exact After.admits_woken .runing h (by decide)
  | poll pp idle k => exact After.admits_woken .runing h (by decide)
  | nextLoop k => exact After.admits_woken .runing h (by decide)
  | nextCheck k => exact After.admits_woken .runing h (by decide)
  | waitTimer w => cases h.1
  | _ => cases h

end Point

variable {T O P W C A : Type}

/-- The scheduler's side. -/
structure SchedOk (s : Eh T O P W C A) : Prop where
  lists : ∃ l, Holds s.sched (s.alive · = true) l ∧ PollOk l (s.point s.self)
  parked : ∀ {t}, s.alive t = true → t ≠ s.self → (s.point t).parked = true
  state : ∀ {t}, s.alive t = true → t ≠ s.self →
    (s.point t).admits false (s.sched.state t)
  selfState : (s.point s.self).admits true (s.sched.state s.self)

/-- The events' side, for the receptors of one task. -/
structure ReceptorOk (sys : System T O W C A) (s : Eh T O P W C A) (t : T) : Prop where
  wait : ∀ {e}, .wait t ∈ s.events.receptors e →
    s.alive t = true ∧ ∃ w, (s.point t).waits = some w ∧ w.event sys = some e
  timer : ∀ {e}, .timer t ∈ s.events.receptors e →
    s.alive t = true ∧ (s.point t).timing = true ∧ e = .timer t
  /-- While the task is in the loop, its receptor is linked unless the event was cleaned. -/
  listed : ∀ {w e}, s.alive t = true → (s.point t).waits = some w → w.event sys = some e →
    .wait t ∈ s.events.receptors e ∨ (s.events.flags (.wait t)).error = true
  error : ∀ {w e}, s.alive t = true → (s.point t).waits = some w → w.event sys = some e →
    (s.events.flags (.wait t)).error = true → s.reached t = true
  /-- No task sleeps that was reached since its last check. -/
  waiting : s.alive t = true → s.sched.state t = .wait → s.reached t = false
  wakeupTask : ∀ {p}, (s.events.epoll p).wakeupTask = some t →
    s.alive t = true ∧ ∃ w n, (s.point t).waits = some w ∧ w.caller = .epoll p n
  /-- A receptor that an error has reached is not linked any more. -/
  clear : ∀ {e}, .wait t ∈ s.events.receptors e → (s.events.flags (.wait t)).error = false

structure EventOk (sys : System T O W C A) (s : Eh T O P W C A) : Prop where
  task : ∀ t, ReceptorOk sys s t
  nodup : ∀ e, (s.events.receptors e).Nodup
  epoll : ∀ {e p x}, .epoll p x ∈ s.events.receptors e → x = e ∧ s.registered p e = true
  event : ∀ {u r}, r ∈ s.events.receptors (.task u) → s.alive u = true

/-- The tasks that the running one joins are allocated, and no receptor is linked to one that
it destroys. -/
structure JoinOk (s : Eh T O P W C A) : Prop where
  joins : ∀ {u}, (s.point s.self).joins = some u → s.alive u = true
  target : ∀ {u}, (s.point s.self).target = some u →
    s.alive u = true ∧ s.sched.state u = .finish ∧ u ≠ s.self
  cleaned : ∀ {u r}, (s.point s.self).cleaned = some u → r ∉ s.events.receptors (.task u)

structure Invariant (sys : System T O W C A) (s : Eh T O P W C A) : Prop where
  sched : SchedOk s
  event : EventOk sys s
  join : JoinOk s

variable {sys : System T O W C A} {s s' : Eh T O P W C A} {t : T}

theorem EventOk.owned (h : EventOk sys s) : Owned s where
  receptor mem eq := by
    rcases eq with rfl | rfl
    · exact ((h.task _).wait mem).1
    · exact ((h.task _).timer mem).1
  epoll eq := ((h.task _).wakeupTask eq).1
  single mem mem' := by
    obtain ⟨-, w, waits, event⟩ := (h.task _).wait mem
    obtain ⟨-, w', waits', event'⟩ := (h.task _).wait mem'
    cases waits.symm.trans waits'
    cases event.symm.trans event'
    rfl

theorem EventOk.not_wait (h : EventOk sys s) (waits : (s.point t).waits = none)
    (e : EhEvent T O) : .wait t ∉ s.events.receptors e := by
  intro mem
  obtain ⟨-, w, eq, -⟩ := (h.task t).wait mem
  rw [waits] at eq
  cases eq

theorem EventOk.not_timer (h : EventOk sys s) (timing : (s.point t).timing = false)
    (e : EhEvent T O) : .timer t ∉ s.events.receptors e := by
  intro mem
  have eq := ((h.task t).timer mem).2.1
  rw [timing] at eq
  cases eq

theorem Wait.event_ne_timer (w : Wait T P C) (t : T) : w.event sys ≠ some (.timer t) := by
  obtain ⟨caller, timeout⟩ := w
  cases caller <;> simp [Wait.event]

theorem SchedOk.live (h : SchedOk s) : s.alive s.self = true := by
  obtain ⟨l, holds, -⟩ := h.lists
  exact holds.current

section Stirred
variable [DecidableEq T]

theorem Stirred.admits (st : Stirred s s') {b : Bool}
    (h : (s.point t).admits b (s.sched.state t)) : (s.point t).admits b (s'.sched.state t) := by
  rcases st.state t with same | ⟨waits, ready⟩
  · rw [same]
    exact h
  · rw [waits] at h
    rw [ready]
    exact Point.admits_woken h

theorem SchedOk.stirred (h : SchedOk s) (st : Stirred s s') : SchedOk s' where
  lists := by
    obtain ⟨l, holds, poll⟩ := h.lists
    obtain ⟨ts, live, eq⟩ := st.sched
    obtain ⟨l', holds', same⟩ := holds.foldl_wakeUp ts live
    refine ⟨l', ?_, ?_⟩
    · rw [eq, st.alive]
      exact holds'
    · rw [st.point, st.currentTask]
      exact poll.congr same
  parked live ne := by
    rw [st.alive] at live
    rw [st.currentTask] at ne
    rw [st.point]
    exact h.parked live ne
  state {t} live ne := by
    rw [st.alive] at live
    rw [st.currentTask] at ne
    rw [st.point]
    exact st.admits (h.state live ne)
  selfState := by
    rw [st.point, st.currentTask]
    exact st.admits h.selfState

theorem ReceptorOk.stirred (h : ReceptorOk sys s t) (st : Stirred s s') :
    ReceptorOk sys s' t where
  wait mem := by
    rw [st.alive, st.point]
    exact h.wait (st.receptors mem)
  timer mem := by
    rw [st.alive, st.point]
    exact h.timer (st.receptors mem)
  listed live waits event := by
    rw [st.alive] at live
    rw [st.point] at waits
    rcases h.listed live waits event with mem | err
    · exact st.kept mem
    · exact .inr (st.errorKept err)
  error live waits event err := by
    rw [st.alive] at live
    rw [st.point] at waits
    rcases st.error err with err | reached
    · exact st.reachedKept (h.error live waits event err)
    · exact reached
  waiting live waits := by
    rw [st.alive] at live
    have before : s.sched.state t = .wait := by
      rcases st.state t with same | ⟨before, -⟩
      · exact same ▸ waits
      · exact before
    by_contra reached
    rw [Bool.not_eq_false] at reached
    rcases st.reached reached with reached | ne
    · rw [h.waiting live before] at reached
      cases reached
    · exact ne waits
  wakeupTask eq := by
    rw [st.wakeupTask] at eq
    rw [st.alive, st.point]
    exact h.wakeupTask eq
  clear mem := st.clear mem (h.clear (st.receptors mem))

theorem EventOk.stirred (h : EventOk sys s) (st : Stirred s s') : EventOk sys s' where
  task t := (h.task t).stirred st
  nodup e := st.nodup (h.nodup e)
  epoll mem := by
    rw [st.registered]
    exact h.epoll (st.receptors mem)
  event mem := by
    rw [st.alive]
    exact h.event (st.receptors mem)

theorem JoinOk.stirred (h : JoinOk s) (st : Stirred s s') : JoinOk s' where
  joins eq := by
    rw [st.point, st.currentTask] at eq
    rw [st.alive]
    exact h.joins eq
  target {u} eq := by
    rw [st.point, st.currentTask] at eq
    obtain ⟨live, finish, ne⟩ := h.target eq
    rw [st.alive, st.currentTask]
    refine ⟨live, ?_, ne⟩
    rcases st.state u with same | ⟨waits, -⟩
    · exact same.trans finish
    · rw [finish] at waits
      cases waits
  cleaned eq mem := by
    rw [st.point, st.currentTask] at eq
    exact h.cleaned eq (st.receptors mem)

theorem Invariant.stirred (h : Invariant sys s) (st : Stirred s s') : Invariant sys s' :=
  ⟨h.sched.stirred st, h.event.stirred st, h.join.stirred st⟩

end Stirred

structure Apart (t : T) (s s' : Eh T O P W C A) : Prop where
  alive : s'.alive = s.alive
  registered : s'.registered = s.registered
  point : ∀ {u}, u ≠ t → s'.point u = s.point u
  waiting : ∀ {u}, u ≠ t → s'.sched.state u = .wait → s.sched.state u = .wait
  reached : ∀ {u}, u ≠ t → s'.reached u = s.reached u
  wait : ∀ {u e}, u ≠ t →
    (.wait u ∈ s'.events.receptors e ↔ .wait u ∈ s.events.receptors e)
  timer : ∀ {u e}, u ≠ t → .timer u ∈ s'.events.receptors e →
    .timer u ∈ s.events.receptors e
  epoll : ∀ {e p x}, .epoll p x ∈ s'.events.receptors e → .epoll p x ∈ s.events.receptors e
  error : ∀ {u}, u ≠ t →
    (s'.events.flags (.wait u)).error = (s.events.flags (.wait u)).error
  wakeupTask : ∀ {u p}, u ≠ t → (s'.events.epoll p).wakeupTask = some u →
    (s.events.epoll p).wakeupTask = some u

theorem ReceptorOk.congr (h : ReceptorOk sys s t) (alive : s'.alive t = s.alive t)
    (point : s'.point t = s.point t)
    (waiting : s'.sched.state t = .wait → s.sched.state t = .wait)
    (reached : s'.reached t = s.reached t)
    (wait : ∀ e, .wait t ∈ s'.events.receptors e ↔ .wait t ∈ s.events.receptors e)
    (timer : ∀ e, .timer t ∈ s'.events.receptors e → .timer t ∈ s.events.receptors e)
    (error : (s'.events.flags (.wait t)).error = (s.events.flags (.wait t)).error)
    (wakeupTask : ∀ p, (s'.events.epoll p).wakeupTask = some t →
      (s.events.epoll p).wakeupTask = some t) : ReceptorOk sys s' t where
  wait mem := by
    rw [alive, point]
    exact h.wait ((wait _).mp mem)
  timer mem := by
    rw [alive, point]
    exact h.timer (timer _ mem)
  listed live waits event := by
    rw [alive] at live
    rw [point] at waits
    rw [wait, error]
    exact h.listed live waits event
  error live waits event err := by
    rw [alive] at live
    rw [point] at waits
    rw [error] at err
    rw [reached]
    exact h.error live waits event err
  waiting live waits := by
    rw [alive] at live
    rw [reached]
    exact h.waiting live (waiting waits)
  wakeupTask eq := by
    rw [alive, point]
    exact h.wakeupTask (wakeupTask _ eq)
  clear mem := by
    rw [error]
    exact h.clear ((wait _).mp mem)

theorem ReceptorOk.apart {u : T} (h : ReceptorOk sys s u) (ap : Apart t s s') (ne : u ≠ t) :
    ReceptorOk sys s' u :=
  h.congr (congrFun ap.alive u) (ap.point ne) (ap.waiting ne) (ap.reached ne)
    (fun _ => ap.wait ne) (fun _ => ap.timer ne) (ap.error ne) fun _ => ap.wakeupTask ne

theorem EventOk.apart (h : EventOk sys s) (ap : Apart t s s') (own : ReceptorOk sys s' t)
    (nodup : ∀ e, (s'.events.receptors e).Nodup)
    (event : ∀ {u}, .wait t ∈ s'.events.receptors (.task u) → s.alive u = true) :
    EventOk sys s' where
  task u := by
    by_cases eq : u = t
    · exact eq ▸ own
    · exact (h.task u).apart ap eq
  nodup := nodup
  epoll mem := by
    rw [ap.registered]
    exact h.epoll (ap.epoll mem)
  event {u r} mem := by
    rw [ap.alive]
    cases r with
    | wait v =>
      by_cases eq : v = t
      · subst eq
        exact event mem
      · exact h.event ((ap.wait eq).mp mem)
    | timer v =>
      by_cases eq : v = t
      · subst eq
        cases (own.timer mem).2.2
      · exact h.event (ap.timer eq mem)
    | epoll p x => exact h.event (ap.epoll mem)

section Move
variable [DecidableEq T]

/-- The running task moves to the point `p`, and the events stay as they are. -/
structure Moves (sys : System T O W C A) (s s' : Eh T O P W C A) (p : Point T P C A) : Prop where
  alive : s'.alive = s.alive
  registered : s'.registered = s.registered
  events : s'.events = s.events
  reached : s'.reached = s.reached
  point : s'.point = Function.update s.point s.self p
  keeps : ∀ {w}, (s.point s.self).waits = some w → p.waits = some w
  news : ∀ {w e}, p.waits = some w → w.event sys = some e → (s.point s.self).waits = some w
  timing : (s.point s.self).timing = true → p.timing = true

theorem EventOk.moves {p : Point T P C A} (h : EventOk sys s) (mv : Moves sys s s' p)
    (waiting : ∀ u, s'.sched.state u = .wait → s.sched.state u = .wait) : EventOk sys s' := by
  have ap : Apart s.self s s' := by
    refine ⟨mv.alive, mv.registered, ?_, ?_, ?_, ?_, ?_, ?_, ?_, ?_⟩
    · intro u ne
      simp [mv.point, ne]
    · exact fun {u} _ => waiting u
    · intro u ne
      rw [mv.reached]
    all_goals simp [mv.events]
  have own := h.task s.self
  have point : s'.point s.self = p := by simp [mv.point]
  refine h.apart ap ?_ (by simpa [mv.events] using h.nodup) fun mem => ?_
  · refine ⟨?_, ?_, ?_, ?_, ?_, ?_, ?_⟩
    · intro e mem
      rw [mv.events] at mem
      obtain ⟨live, w, waits, event⟩ := own.wait mem
      rw [mv.alive, point]
      exact ⟨live, w, mv.keeps waits, event⟩
    · intro e mem
      rw [mv.events] at mem
      obtain ⟨live, timing, eq⟩ := own.timer mem
      rw [mv.alive, point]
      exact ⟨live, mv.timing timing, eq⟩
    · intro w e live waits event
      rw [mv.alive] at live
      rw [point] at waits
      rw [mv.events]
      exact own.listed live (mv.news waits event) event
    · intro w e live waits event err
      rw [mv.alive] at live
      rw [point] at waits
      rw [mv.events] at err
      rw [mv.reached]
      exact own.error live (mv.news waits event) event err
    · intro live waits
      rw [mv.alive] at live
      rw [mv.reached]
      exact own.waiting live (waiting _ waits)
    · intro q eq
      rw [mv.events] at eq
      obtain ⟨live, w, n, waits, caller⟩ := own.wakeupTask eq
      rw [mv.alive, point]
      exact ⟨live, w, n, mv.keeps waits, caller⟩
    · intro e mem
      rw [mv.events] at mem ⊢
      exact own.clear mem
  · rw [mv.events] at mem
    exact h.event mem

theorem SchedOk.moves {p : Point T P C A} (h : SchedOk s)
    (holds : ∀ l, Holds s.sched (s.alive · = true) l → Holds s'.sched (s.alive · = true) l)
    (self : s'.self = s.self) (alive : s'.alive = s.alive)
    (point : s'.point = Function.update s.point s.self p)
    (others : ∀ u, u ≠ s.self → s'.sched.state u = s.sched.state u)
    (admits : p.admits true (s'.sched.state s.self))
    (poll : ∀ l, Holds s'.sched (s.alive · = true) l → PollOk l (s.point s.self) →
      PollOk l p) : SchedOk s' where
  lists := by
    obtain ⟨l, ok, pollOk⟩ := h.lists
    refine ⟨l, alive ▸ holds l ok, ?_⟩
    rw [self, point, Function.update_self]
    exact poll l (holds l ok) pollOk
  parked live ne := by
    rw [alive] at live
    rw [self] at ne
    rw [point, Function.update_of_ne ne]
    exact h.parked live ne
  state live ne := by
    rw [alive] at live
    rw [self] at ne
    rw [point, Function.update_of_ne ne, others _ ne]
    exact h.state live ne
  selfState := by
    rw [self, point, Function.update_self]
    exact admits

end Move

end EventHub.Kernel
