import EventHub.Kernel.Runs
import EventHub.Library.Turns

/-! What a step does to the scheduler: whom it wakes up, and whose turn it is. -/

namespace EventHub.Kernel
open Library Event

variable {T O P W C A : Type}

/-- In a pass of `eh_task_next` in which no task is ready. -/
def Point.idling : Point T P C A → Bool
  | .poll _ idle _ => idle
  | .nextCheck _ => true
  | _ => false

section Code
variable [DecidableEq T]

/-- Of these calls of `eh_task_wake_up` in a row, those that link a task into the ring. -/
def Sched.readied (s : Sched T) : List T → List T
  | [] => []
  | t :: ts =>
    (if s.state t = .wait ∧ t ≠ s.currentTask then [t] else []) ++ (s.ehTaskWakeUp t).readied ts

namespace Eh

/-- The tasks that a signal wakes up, in this order. -/
def signalWakeUps (s : Eh T O P W C A) : Signal (EhEvent T O) → List T
  | .notify e | .clean e => s.events.wakeups (s.events.receptors e)
  | .notifyAndReorder e num => s.events.wakeups (s.events.reordered e num)

def actWakeUps (sys : System T O W C A) (s : Eh T O P W C A) (a : A) : List T :=
  match (sys.act a s.self s.world).signal with
  | none => []
  | some g => s.signalWakeUps (g.map .object)

def goWakeUps (sys : System T O W C A) (s : Eh T O P W C A) : Point T P C A → List T
  | .acting a => s.actWakeUps sys a
  | .returned w ret =>
    match w.caller with
    | .join u => if ret < 0 then [] else s.signalWakeUps (.clean (.task u))
    | .object _ | .epoll _ _ => []
  | .finishing => s.signalWakeUps (.notify (.task s.self))
  | .poll (.destroy (.task u) _) _ _ => s.signalWakeUps (.clean (.task u))
  | _ => []

/-- The calls of `eh_task_wake_up` in a step, those for new tasks apart. -/
def wakeUps (sys : System T O W C A) (s : Eh T O P W C A) : Label T O P C A → List T
  | .go => s.goWakeUps sys (s.point s.self)
  | .act a => s.actWakeUps sys a
  | .exit =>
    if s.self = s.sched.mainTask then [] else s.signalWakeUps (.notify (.task s.self))
  | .signal g => s.signalWakeUps g
  | .wakeUp t => [t]
  | .expire t => if s.timerRunning t then s.signalWakeUps (.notify (.timer t)) else []
  | .interrupt a => s.actWakeUps sys a
  | .interruptGo i =>
    match s.calls[i]? with
    | some a => s.actWakeUps sys a
    | none => []
  | _ => []

def isReady (s : Eh T O P W C A) : Bool :=
  s.sched.state s.self = .runing ∨ s.sched.state s.self = .ready

/-- The turns taken in `eh_task_next`. -/
def nextTurns (s : Eh T O P W C A) : Point T P C A → List (Turn T)
  | .nextLoop _ =>
    if s.sched.ringEmpty then [.idle]
    else
      match s.sched.links.next (.task s.self) with
      | .task u => [.switch s.self u s.isReady]
      | _ => []
  | .nextCheck _ => if s.isReady then [.resume s.self] else [.stay]
  | _ => []

def turns (sys : System T O W C A) (s : Eh T O P W C A) : Label T O P C A → List (Turn T)
  | .go => (s.sched.readied (s.wakeUps sys .go)).map .ready ++ s.nextTurns (s.point s.self)
  | .create t _ _ => [.ready t]
  | l => (s.sched.readied (s.wakeUps sys l)).map .ready

end Eh

end Code

inductive Scheduling [DecidableEq T] (s : Eh T O P W C A) (l : Label T O P C A) :
    List (Turn T) → Eh T O P W C A → Prop
  | still {s' : Eh T O P W C A} (n : Nat) : s'.sched = { s.sched with dispatchCnt := n } →
      s'.alive = s.alive → (s'.point s'.self).idling = (s.point s.self).idling →
      Scheduling s l [] s'
  | wakes {s' : Eh T O P W C A} (st : TaskState) (ts : List T) :
      (∀ t ∈ ts, s.alive t = true) →
      s'.sched = ts.foldl Sched.ehTaskWakeUp (s.sched.setState s.self st) →
      s'.alive = s.alive → (s'.point s'.self).idling = (s.point s.self).idling →
      Scheduling s l ((s.sched.readied ts).map .ready) s'
  /-- `_task_auto_destruct` finds its list empty. -/
  | polled {s' : Eh T O P W C A} :
      s.sched.links.next .taskFinishAutoDestructListHead = .taskFinishAutoDestructListHead →
      s'.sched = { s.sched with autoDestructTask := false } → s'.alive = s.alive →
      (s'.point s'.self).idling = (s.point s.self).idling → Scheduling s l [] s'
  /-- A finished task is destroyed, perhaps the last one that `_task_auto_destruct` finds. -/
  | releases {s' : Eh T O P W C A} (u : T) (b : Bool) : s.alive u = true →
      s.sched.state u = .finish → u ≠ s.self →
      s'.sched = { s.sched.ehListDel u with autoDestructTask := b } →
      (b = s.sched.autoDestructTask ∨ s'.sched.links.next .taskFinishAutoDestructListHead =
        .taskFinishAutoDestructListHead) →
      s'.alive = Function.update s.alive u false →
      (s'.point s'.self).idling = (s.point s.self).idling → Scheduling s l [] s'
  | idles {s' : Eh T O P W C A} : s.sched.ringEmpty = true → s'.sched = s.sched →
      s'.alive = s.alive → (s'.point s'.self).idling = true → Scheduling s l [.idle] s'
  | resumes {s' : Eh T O P W C A} : (s.point s.self).idling = true →
      s'.sched = s.sched.setState s.self .runing → s'.alive = s.alive →
      (s'.point s'.self).idling = false → Scheduling s l [.resume s.self] s'
  | stays {s' : Eh T O P W C A} : (s.point s.self).idling = true → s'.sched = s.sched →
      s'.alive = s.alive → (s'.point s'.self).idling = false → Scheduling s l [.stay] s'
  | switches {s' : Eh T O P W C A} {u : T} {rest : List T} {lists : Home → List T} :
      (s.point s.self).idling = false → Holds s.sched (s.alive · = true) lists →
      lists .ready = u :: rest → s'.sched = s.sched.switchTo u → s'.alive = s.alive →
      (s'.point s'.self).idling = false → Scheduling s l [.switch s.self u s.isReady] s'
  | creates {s' : Eh T O P W C A} {t : T} (system auto : Bool) : l = .create t system auto →
      s.alive t = false → s'.sched = s.sched.ehTaskCreate t system auto →
      s'.alive = Function.update s.alive t true →
      (s'.point s'.self).idling = (s.point s.self).idling → Scheduling s l [.ready t] s'

namespace Sched
variable [DecidableEq T]

theorem setState_self (s : Sched T) (t : T) : s.setState t (s.state t) = s := by
  simp [setState, state]

theorem ehTaskWakeUp_autoDestructTask (s : Sched T) (t : T) :
    (s.ehTaskWakeUp t).autoDestructTask = s.autoDestructTask := by
  rw [ehTaskWakeUp]
  split_ifs <;> rfl

theorem foldl_wakeUp_autoDestructTask (ts : List T) (s : Sched T) :
    (ts.foldl ehTaskWakeUp s).autoDestructTask = s.autoDestructTask := by
  induction ts generalizing s with
  | nil => rfl
  | cons t ts ih => rw [List.foldl_cons, ih, ehTaskWakeUp_autoDestructTask]

theorem ehTaskWakeUp_isSystemTask (s : Sched T) (t u : T) :
    ((s.ehTaskWakeUp t).task u).isSystemTask = (s.task u).isSystemTask := by
  rw [ehTaskWakeUp]
  split_ifs <;> first | rfl | exact setState_isSystemTask s t u .ready

theorem foldl_wakeUp_isSystemTask (ts : List T) (s : Sched T) (u : T) :
    ((ts.foldl ehTaskWakeUp s).task u).isSystemTask = (s.task u).isSystemTask := by
  induction ts generalizing s with
  | nil => rfl
  | cons t ts ih => rw [List.foldl_cons, ih, ehTaskWakeUp_isSystemTask]

theorem switchTo_isSystemTask (s : Sched T) (toTask u : T) :
    ((s.switchTo toTask).task u).isSystemTask = (s.task u).isSystemTask := by
  rw [switchTo, setState_isSystemTask, putAway]
  split
  · rw [setState_isSystemTask]
  · rw [setState_isSystemTask]
  · rfl
  · split <;> rfl

end Sched

variable {sys : System T O W C A} {s s' : Eh T O P W C A} {l : Label T O P C A}
  {k : After T P C}

theorem signalWakeUps_alive (own : Owned s) (g : Signal (EhEvent T O)) :
    ∀ t ∈ s.signalWakeUps g, s.alive t = true := by
  cases g with
  | notify e => exact own.wakeups (e := e) fun r mem => mem
  | clean e => exact own.wakeups (e := e) fun r mem => mem
  | notifyAndReorder e num => exact own.wakeups (e := e) fun r mem => List.mem_of_mem_take mem

theorem actWakeUps_alive (own : Owned s) (a : A) :
    ∀ t ∈ s.actWakeUps sys a, s.alive t = true := by
  rw [Eh.actWakeUps]
  cases (sys.act a s.self s.world).signal with
  | none => simp
  | some g => exact signalWakeUps_alive own _

theorem pollEnd_idling (idle : Bool) (k : After T P C) :
    (pollEnd idle k : Point T P C A).idling = idle := by
  cases idle <;> rfl

variable [DecidableEq T]

theorem setPoint_point (s : Eh T O P W C A) (t : T) (p : Point T P C A) :
    (s.setPoint t p).point t = p := Function.update_self ..

namespace Scheduling

theorem moves (sched : s'.sched = s.sched) (alive : s'.alive = s.alive)
    (idling : (s'.point s'.self).idling = (s.point s.self).idling) : Scheduling s l [] s' :=
  .still s.sched.dispatchCnt sched alive idling

theorem signals (ts : List T) (live : ∀ t ∈ ts, s.alive t = true)
    (sched : s'.sched = ts.foldl Sched.ehTaskWakeUp s.sched) (alive : s'.alive = s.alive)
    (idling : (s'.point s'.self).idling = (s.point s.self).idling) :
    Scheduling s l ((s.sched.readied ts).map .ready) s' :=
  .wakes (s.sched.state s.self) ts live (by rw [sched, Sched.setState_self]) alive idling

theorem stirred (st : Stirred s s') (ts : List T) (live : ∀ t ∈ ts, s.alive t = true)
    (sched : s'.sched = ts.foldl Sched.ehTaskWakeUp s.sched) :
    Scheduling s l ((s.sched.readied ts).map .ready) s' :=
  signals ts live sched st.alive (by rw [st.point, st.currentTask])

theorem point {x : Eh T O P W C A} {p : Point T P C A} (sched : x.sched = s.sched)
    (alive : x.alive = s.alive) (idling : p.idling = (s.point s.self).idling) :
    Scheduling s l [] (x.setPoint s.self p) :=
  .moves sched alive (by simp [Eh.setPoint, Eh.self, sched, idling])

theorem startWait {x : Eh T O P W C A} (w : Wait T P C) (sched : x.sched = s.sched)
    (alive : x.alive = s.alive) (calm : (s.point s.self).idling = false) :
    Scheduling s l [] (x.startWait w) := by
  have self : x.self = s.self := by rw [Eh.self, sched]
  rw [Eh.startWait, self]
  split_ifs <;> exact .point sched alive calm.symm

end Scheduling

theorem continueAt_moves (step : s.continueAt k = some s') :
    s'.sched = s.sched ∧ s'.alive = s.alive ∧ (s'.point s'.self).idling = false := by
  cases k with
  | yield =>
    cases step
    exact ⟨rfl, rfl, by simp [Eh.setPoint, Point.idling]⟩
  | finished => cases step
  | wait w =>
    cases step
    exact ⟨rfl, rfl, by simp [Eh.setPoint, Point.idling]⟩

theorem Scheduling.dispatch (inv : Invariant sys s) (at_ : s.point s.self = .nextLoop k)
    (step : s.dispatch k = some s') : Scheduling s l (s.nextTurns (.nextLoop k)) s' := by
  obtain ⟨lists, holds, -⟩ := inv.sched.lists
  have calm : (s.point s.self).idling = false := by rw [at_]; rfl
  rw [Eh.dispatch] at step
  rw [Eh.nextTurns]
  split at step
  · next none =>
    cases step
    rw [if_pos none]
    exact .idles none rfl rfl (congrArg Point.idling (setPoint_point _ _ _))
  · next more =>
    rw [if_neg more]
    have ne : lists .ready ≠ [] := fun empty => more (holds.ringEmpty.mpr empty)
    cases next : s.sched.links.next (.task s.self) with
    | task u =>
      rw [next] at step
      cases step
      obtain ⟨rest, ready⟩ := holds.ready_of_next ne next
      obtain ⟨live, neU, -⟩ := (holds.mem .ready u).mp (by simp [ready])
      have parked := inv.sched.parked live neU
      refine .switches calm holds ready rfl rfl ?_
      have self : (s.sched.switchTo u).currentTask = u := Sched.switchTo_currentTask ..
      simp only [Eh.self, Eh.setPoint, self, Function.update_of_ne neU]
      cases point : s.point u with
      | fresh => rfl
      | resumed k => rfl
      | _ =>
        rw [point] at parked
        cases parked
    | _ =>
      rw [next] at step
      cases step

theorem Scheduling.idleCheck (at_ : s.point s.self = .nextCheck k)
    (step : s.idleCheck k = some s') : Scheduling s l (s.nextTurns (.nextCheck k)) s' := by
  have idles : (s.point s.self).idling = true := by rw [at_]; rfl
  rw [Eh.idleCheck] at step
  rw [Eh.nextTurns, Eh.isReady]
  split at step
  · next ready =>
    obtain ⟨sched, alive, idling⟩ := continueAt_moves step
    rw [if_pos (by simpa using ready)]
    exact .resumes idles sched alive idling
  · next waits =>
    cases step
    rw [if_neg (by simpa using waits)]
    exact .stays idles rfl rfl (congrArg Point.idling (setPoint_point _ _ _))

variable [DecidableEq O] [DecidableEq P]

theorem signal_sched (s : Eh T O P W C A) (g : Signal (EhEvent T O)) :
    (s.signal g).sched = (s.signalWakeUps g).foldl Sched.ehTaskWakeUp s.sched := by
  cases g <;> rfl

theorem perform_sched (sys : System T O W C A) (s : Eh T O P W C A) (a : A) :
    (s.perform sys a).sched = (s.actWakeUps sys a).foldl Sched.ehTaskWakeUp s.sched := by
  rw [Eh.perform, Eh.actWakeUps]
  cases (sys.act a s.self s.world).signal with
  | none => rfl
  | some g => exact signal_sched _ _

/-! The steps inside a call. -/

theorem Scheduling.signalThen {p : Point T P C A} (own : Owned s) (g : Signal (EhEvent T O))
    (idling : p.idling = (s.point s.self).idling) :
    Scheduling s l ((s.sched.readied (s.signalWakeUps g)).map .ready)
      ((s.signal g).setPoint s.self p) := by
  have st := signal_stirred own g
  refine .signals _ (signalWakeUps_alive own g) (signal_sched s g) st.alive ?_
  have self : ((s.signal g).setPoint s.self p).self = s.self := st.currentTask
  rw [self, setPoint_point, idling]

theorem Scheduling.actStep {a : A} (own : Owned s) (idling : (s.point s.self).idling = false) :
    Scheduling s l ((s.sched.readied (s.actWakeUps sys a)).map .ready) (s.actStep sys a) := by
  have st := perform_stirred sys own a
  refine .signals _ (actWakeUps_alive own a) (perform_sched sys s a) st.alive ?_
  have self : (s.actStep sys a).self = s.self := st.currentTask
  rw [self, Eh.actStep, setPoint_point, idling]
  split <;> rfl

theorem check_sched (sys : System T O W C A) (s : Eh T O P W C A) (w : Wait T P C) :
    (s.check sys w).2.sched = s.sched ∧ (s.check sys w).2.alive = s.alive := by
  obtain ⟨caller, timeout⟩ := w
  rw [Eh.check]
  cases caller with
  | epoll q n =>
    dsimp only
    split <;> exact ⟨rfl, rfl⟩
  | join u =>
    dsimp only [Eh.condition]
    split_ifs <;> exact ⟨rfl, rfl⟩
  | object c =>
    dsimp only
    split
    · split_ifs <;> exact ⟨rfl, rfl⟩
    · split_ifs <;> exact ⟨rfl, rfl⟩

theorem Scheduling.loopWait (w : Wait T P C) (calm : (s.point s.self).idling = false) :
    Scheduling s l [] (s.loopWait sys w) := by
  obtain ⟨sched, alive⟩ := check_sched sys s w
  rw [Eh.loopWait]
  cases checked : s.check sys w with
  | mk result x =>
    rw [checked] at sched alive
    dsimp only at sched alive ⊢
    have self : x.self = s.self := by rw [Eh.self, sched]
    cases result with
    | some ret =>
      refine .moves sched alive ?_
      rw [calm]
      refine (congrArg Point.idling (setPoint_point _ x.self _)).trans ?_
      split <;> rfl
    | none =>
      refine .wakes .wait [] (by simp) ?_ alive ?_
      · rw [← sched, ← self]
        rfl
      · rw [calm]
        exact congrArg Point.idling (setPoint_point _ x.self _)

theorem Scheduling.pollStep (inv : Invariant sys s) {pp : PollPoint T} {idle : Bool}
    (at_ : s.point s.self = .poll pp idle k) (step : s.pollStep idle k pp = some s') :
    Scheduling s .go ((s.sched.readied (s.goWakeUps sys (.poll pp idle k))).map .ready) s' := by
  obtain ⟨lists, holds, pollOk⟩ := inv.sched.lists
  rw [at_] at pollOk
  have same : ∀ qq : PollPoint T, (Point.poll qq idle k : Point T P C A).idling =
      (s.point s.self).idling := fun qq => by rw [at_]; rfl
  have ends : (pollEnd idle k : Point T P C A).idling = (s.point s.self).idling := by
    rw [at_, pollEnd_idling]
    rfl
  cases pp with
  | start =>
    rw [Eh.pollStep] at step
    split at step
    · cases step
      rw [Eh.autoDestruct]
      split
      · next empty =>
        refine .polled empty rfl rfl ?_
        exact (congrArg Point.idling (setPoint_point _ _ _)).trans ends
      · exact .point rfl rfl (same _)
    · cases step
      exact .point rfl rfl ends
  | destroy pos n =>
    cases pos with
    | task u =>
      cases step
      exact .signalThen inv.event.owned (.clean (.task u)) (same (.unlink (.task u) n))
    | _ => cases step
  | unlink pos n =>
    cases pos with
    | task u =>
      cases step
      obtain ⟨v, rest, first, eq, rfl⟩ := pollOk
      cases eq
      have mem : u ∈ lists .autoDestruct := by simp [first]
      obtain ⟨live, ne, home⟩ := (holds.mem .autoDestruct u).mp mem
      have finish := (home_autoDestruct.mp home).1
      rw [Eh.autoDestruct]
      split
      · next last =>
        refine .releases u false live finish ne rfl (.inr ?_) rfl ?_
        · have left := first_autoDestruct (holds.ehListDel mem)
          rw [Function.update_self, first, List.erase_cons_head, last] at left
          exact left
        · exact (congrArg Point.idling (setPoint_point _ _ _)).trans ends
      · refine .releases u s.sched.autoDestructTask live finish ne rfl (.inl rfl) rfl ?_
        exact (congrArg Point.idling (setPoint_point _ _ _)).trans (same _)
    | _ => cases step

theorem Scheduling.afterWait (inv : Invariant sys s) {w : Wait T P C} {ret : Int}
    (at_ : s.point s.self = .returned w ret) :
    Scheduling s l ((s.sched.readied (s.goWakeUps sys (.returned w ret))).map .ready)
      (s.afterWait sys w ret) := by
  have calm : (s.point s.self).idling = false := by rw [at_]; rfl
  obtain ⟨caller, timeout⟩ := w
  rw [Eh.afterWait]
  simp only [Eh.goWakeUps]
  cases caller with
  | join u =>
    dsimp only
    split
    · exact .point rfl rfl calm.symm
    · exact .signalThen inv.event.owned _ calm.symm
  | object c => exact .point rfl rfl calm.symm
  | epoll q n => exact .point rfl rfl calm.symm

theorem Scheduling.go (inv : Invariant sys s) (step : s.go sys = some s') :
    Scheduling s .go (s.turns sys .go) s' := by
  have still : s.sched.readied (s.goWakeUps sys (s.point s.self)) = [] →
      Scheduling s .go (s.nextTurns (s.point s.self)) s' →
      Scheduling s .go (s.turns sys .go) s' := by
    intro none sched
    rw [Eh.turns, Eh.wakeUps, none]
    exact sched
  have acts : s.nextTurns (s.point s.self) = [] →
      Scheduling s .go ((s.sched.readied (s.goWakeUps sys (s.point s.self))).map .ready) s' →
      Scheduling s .go (s.turns sys .go) s' := by
    intro none sched
    rw [Eh.turns, Eh.wakeUps, none, List.append_nil]
    exact sched
  rw [Eh.go] at step
  split at step
  · next at_ =>
    cases step
    exact still (by rw [at_]; rfl) (by rw [at_]; exact .point rfl rfl (by rw [at_]; rfl))
  · cases step
  · next at_ =>
    cases step
    refine acts (by rw [at_]; rfl) ?_
    rw [at_]
    exact .actStep inv.event.owned (by rw [at_]; rfl)
  · next w at_ =>
    cases step
    refine still (by rw [at_]; rfl) ?_
    rw [at_, Eh.startTimer]
    split <;> exact .point rfl rfl (by rw [at_]; rfl)
  · next w at_ =>
    cases step
    refine still (by rw [at_]; rfl) ?_
    rw [at_, Eh.linkReceptor]
    split <;> exact .point rfl rfl (by rw [at_]; rfl)
  · next w at_ =>
    cases step
    refine still (by rw [at_]; rfl) ?_
    rw [at_]
    exact .loopWait w (by rw [at_]; rfl)
  · next at_ =>
    cases step
    refine still (by rw [at_]; rfl) ?_
    rw [at_]
    exact .point rfl rfl (by rw [at_]; rfl)
  · next at_ =>
    cases step
    refine acts (by rw [at_]; rfl) ?_
    rw [at_]
    exact .afterWait inv at_
  · next u at_ =>
    cases step
    obtain ⟨live, finish, ne⟩ := inv.join.target (u := u) (by rw [at_]; rfl)
    refine still (by rw [at_]; rfl) ?_
    rw [at_]
    exact .releases u _ live finish ne rfl (.inl rfl) rfl
      ((congrArg Point.idling (setPoint_point _ _ _)).trans (by rw [at_]; rfl))
  · next at_ =>
    cases step
    refine acts (by rw [at_]; rfl) ?_
    rw [at_]
    exact .signalThen (p := .next .finished) inv.event.owned (.notify (.task s.self))
      (by rw [at_]; rfl)
  · next k at_ =>
    cases step
    refine still (by rw [at_]; rfl) ?_
    rw [at_, Eh.nextStep]
    split <;> exact .point rfl rfl (by rw [at_]; rfl)
  · next at_ =>
    refine acts (by rw [at_]; rfl) ?_
    rw [at_]
    exact .pollStep inv at_ step
  · next at_ =>
    refine still (by rw [at_]; rfl) ?_
    rw [at_]
    exact .dispatch inv at_ step
  · next at_ =>
    refine still (by rw [at_]; rfl) ?_
    rw [at_]
    exact .idleCheck at_ step
  · next at_ =>
    obtain ⟨sched, alive, idling⟩ := continueAt_moves step
    refine still (by rw [at_]; rfl) ?_
    rw [at_]
    exact .still _ sched alive (idling.trans (by rw [at_]; rfl))

theorem Scheduling.user (inv : Invariant sys s) (at_ : s.point s.self = .user)
    (step : s.user sys l = some s') : Scheduling s l (s.turns sys l) s' := by
  have calm : (s.point s.self).idling = false := by rw [at_]; rfl
  cases Eh.user_cases step with
  | @wait w =>
    obtain ⟨caller, timeout⟩ := w
    change Scheduling s _ [] _
    rw [Eh.enter]
    cases caller with
    | epoll q n =>
      dsimp only
      split_ifs <;> exact .point rfl rfl calm.symm
    | join u =>
      dsimp only [Eh.condition]
      by_cases finished : s.sched.state u = .finish
      · simp only [finished, decide_true]
        exact .point rfl rfl calm.symm
      · simp only [finished, decide_false]
        exact .startWait _ rfl rfl calm
    | object c =>
      dsimp only
      split
      · exact .point rfl rfl calm.symm
      · exact .startWait _ rfl rfl calm
      · exact .startWait _ rfl rfl calm
  | act => exact .actStep inv.event.owned calm
  | @create t system auto dead =>
    have ne : s.self ≠ t := fun eq => by
      rw [← eq, Bool.eq_false_iff] at dead
      exact dead inv.sched.live
    refine .creates system auto rfl dead rfl rfl ?_
    have self : (s.create t system auto).self = s.self := Sched.ehTaskCreate_currentTask ..
    rw [self]
    exact congrArg Point.idling (Function.update_of_ne ne _ _)
  | yield => exact .point rfl rfl calm.symm
  | ret =>
    exact .wakes .finish [] (by simp) rfl rfl
      ((congrArg Point.idling (setPoint_point _ _ _)).trans calm.symm)
  | exitMain main =>
    rw [Eh.turns, Eh.wakeUps, if_pos main]
    exact .point rfl rfl calm.symm
    all_goals simp
  | exit other =>
    rw [Eh.turns, Eh.wakeUps, if_neg other]
    · have st := signal_stirred (s := { s with sched := s.sched.setState s.self .finish })
        ⟨inv.event.owned.receptor, inv.event.owned.epoll, inv.event.owned.single⟩
        (.notify (.task s.self))
      refine .wakes .finish _ (signalWakeUps_alive inv.event.owned _) (signal_sched _ _)
        st.alive ?_
      have self := st.currentTask
      rw [calm, Eh.self, Eh.setPoint]
      dsimp only
      rw [show _ = s.self from self, Function.update_self]
      rfl
    all_goals simp
  | @epollAdd q e =>
    change Scheduling s _ [] _
    rw [Eh.ehEpollAddEvent]
    split <;> exact .moves rfl rfl rfl
  | epollDel q e =>
    change Scheduling s _ [] _
    rw [Eh.ehEpollDelEvent]
    split <;> exact .moves rfl rfl rfl

theorem Eh.scheduling (inv : Invariant sys s) (step : s.step sys l = some s') :
    Scheduling s l (s.turns sys l) s' := by
  cases Eh.step_cases step with
  | go step => exact .go inv step
  | user at_ step => exact .user inv at_ step
  | signal g =>
    exact .stirred (signal_stirred inv.event.owned g) _ (signalWakeUps_alive inv.event.owned g)
      (signal_sched s g)
  | wakeUp live => exact .stirred (.of_wakeUp live) [_] (by simpa using live) rfl
  | expire t =>
    have st := expire_stirred inv.event.owned t
    refine .stirred st _ ?_ ?_
    · rw [Eh.wakeUps]
      split
      · exact signalWakeUps_alive inv.event.owned _
      · simp
    · rw [Eh.expire, Eh.wakeUps]
      split
      · exact signal_sched _ _
      · rfl
  | interrupt =>
    have st := perform_stirred sys inv.event.owned
    exact .signals _ (actWakeUps_alive inv.event.owned _) (perform_sched sys s _) (st _).alive
      (congrArg Point.idling (by rw [(st _).point, (st _).currentTask]))
  | interruptGo at_ =>
    have st := perform_stirred sys inv.event.owned
    rw [Eh.turns, Eh.wakeUps, at_]
    · exact .signals _ (actWakeUps_alive inv.event.owned _) (perform_sched sys s _) (st _).alive
        (congrArg Point.idling (by rw [(st _).point, (st _).currentTask]))
    all_goals simp

end EventHub.Kernel
