import EventHub.Event.Receptors
import EventHub.Kernel.Codes
import EventHub.Kernel.Lists
import EventHub.Library.Transition
import Mathlib.Tactic.Ring

/-! The whole system as a step relation. A step is a critical section of the running task, with
the code of that task up to the next one, or what another context does between two steps: a
notification, a wake-up, a timer that expires. The objects built on events (semaphores,
mutexes, flags) are given by a `System`. -/

namespace EventHub.Kernel
open Library Event

/-- The event of an object, of a task, and of the timeout timer of the wait a task is in. -/
inductive EhEvent (T O : Type) where
  | object (o : O)
  | task (t : T)
  | timer (t : T)
deriving DecidableEq

inductive Signal (E : Type) where
  | notify (e : E)
  | notifyAndReorder (e : E) (num : Int)
  | clean (e : E)

def Signal.map {E F : Type} (f : E → F) : Signal E → Signal F
  | notify e => notify (f e)
  | notifyAndReorder e num => notifyAndReorder (f e) num
  | clean e => clean (f e)

/-- One atomic part of a call: the shared data after it, the event it signals in the same
critical section, and what is left of the call. -/
structure Act (O W A : Type) where
  world : W
  signal : Option (Signal O)
  rest : Option A

/-- The objects of a program. `W` is their shared data, `C` the waits on them and `A` their
other calls. -/
structure System (T O W C A : Type) where
  /-- `EH_CONFIG_TASK_DISPATCH_CNT_PER_POLL`. -/
  dispatchCntPerPoll : Nat
  event : C → O
  condition : C → Option (T → W → Bool × W)
  /-- What the caller of the wait does with the value that it returns. -/
  finish : C → T → Int → W → W
  act : A → T → W → Act O W A
  fromTask : A → Bool
  fromInterrupt : A → Bool

/-- The function that waits: `eh_task_join`, a wait on an object, `eh_epoll_wait`. -/
inductive Caller (T P C : Type) where
  | join (u : T)
  | object (c : C)
  | epoll (p : P) (slotSize : Nat)
deriving DecidableEq

structure Wait (T P C : Type) where
  caller : Caller T P C
  timeout : Int
deriving DecidableEq

/-- Where a task goes on when `eh_task_next` returns. -/
inductive After (T P C : Type) where
  | yield
  | finished
  | wait (w : Wait T P C)
deriving DecidableEq

/-- Inside `_eh_poll_run`: at its start, or in `_task_auto_destruct` with its `pos` and `n`,
before `eh_event_clean` or before `eh_list_del`. -/
inductive PollPoint (T : Type) where
  | start
  | destroy (pos n : Node T)
  | unlink (pos n : Node T)
deriving DecidableEq

inductive Point (T P C A : Type) where
  | fresh
  | user
  | acting (a : A)
  | waitTimer (w : Wait T P C)
  | waitAdd (w : Wait T P C)
  | waitLoop (w : Wait T P C)
  | waitEnd (w : Wait T P C) (ret : Int)
  | returned (w : Wait T P C) (ret : Int)
  | destroying (u : T)
  | finishing
  | next (k : After T P C)
  | poll (p : PollPoint T) (idle : Bool) (k : After T P C)
  | nextLoop (k : After T P C)
  | nextCheck (k : After T P C)
  | resumed (k : After T P C)
deriving DecidableEq

/-- `eh_t`, with the tasks, events and timers it reaches. -/
structure Eh (T O P W C A : Type) where
  sched : Sched T
  events : Events (EhEvent T O) T P
  /-- The event is in the tree of the epoll. -/
  registered : P → EhEvent T O → Bool
  timerRunning : T → Bool
  alive : T → Bool
  point : T → Point T P C A
  world : W
  /-- The rests of the calls made in other contexts. -/
  calls : List A
  -- History: something has reached the wait of the task since its last check, and the number
  -- of switches since the last `eh_poll`.
  reached : T → Bool
  sincePoll : Nat

inductive Label (T O P C A : Type) where
  | go
  | wait (w : Wait T P C)
  | act (a : A)
  | create (t : T) (isSystemTask isAutoDestruct : Bool)
  | yield
  | ret
  | exit
  | epollAdd (p : P) (e : EhEvent T O)
  | epollDel (p : P) (e : EhEvent T O)
  | signal (g : Signal (EhEvent T O))
  | wakeUp (t : T)
  | expire (t : T)
  | interrupt (a : A)
  | interruptGo (i : Nat)

section
variable {T O P W C A : Type}

/-- `receptor` is linked to this event. -/
def Wait.event (sys : System T O W C A) (w : Wait T P C) : Option (EhEvent T O) :=
  match w.caller with
  | .join u => some (.task u)
  | .object c => some (.object (sys.event c))
  | .epoll _ _ => none

/-- Whether the wait has a timeout timer, given that it gets as far as waiting. -/
def Wait.timed (w : Wait T P C) : Bool := w.timeout ≠ ehTimeForever

end

namespace Eh
variable {T O P W C A : Type} [DecidableEq T] [DecidableEq O] [DecidableEq P]

abbrev self (s : Eh T O P W C A) : T := s.sched.currentTask

def setPoint (s : Eh T O P W C A) (t : T) (p : Point T P C A) : Eh T O P W C A :=
  { s with point := Function.update s.point t p }

def reach (s : Eh T O P W C A) (rs : List (Receptor (EhEvent T O) T P))
    (events : Events (EhEvent T O) T P) : Eh T O P W C A :=
  { s with
    events := events
    sched := (s.events.wakeups rs).foldl Sched.ehTaskWakeUp s.sched
    reached := fun t => s.reached t || decide (.wait t ∈ rs) || decide (.timer t ∈ rs) }

def signal (s : Eh T O P W C A) : Signal (EhEvent T O) → Eh T O P W C A
  | .notify e => s.reach (s.events.receptors e) (s.events.ehEventNotify e)
  | .notifyAndReorder e num =>
    s.reach (s.events.reordered e num) (s.events.ehEventNotifyAndReorder e num)
  | .clean e => s.reach (s.events.receptors e) (s.events.ehEventClean e)

def wakeUp (s : Eh T O P W C A) (t : T) : Eh T O P W C A :=
  { s with sched := s.sched.ehTaskWakeUp t }

/-- `eh_timer_check` finds the timeout timer of the task due. -/
def expire (s : Eh T O P W C A) (t : T) : Eh T O P W C A :=
  if s.timerRunning t then
    { s with timerRunning := Function.update s.timerRunning t false }.signal (.notify (.timer t))
  else s

def perform (sys : System T O W C A) (s : Eh T O P W C A) (a : A) :
    Eh T O P W C A :=
  let done := sys.act a s.self s.world
  let s' := { s with world := done.world }
  match done.signal with
  | none => s'
  | some g => s'.signal (g.map .object)

def condition (sys : System T O W C A) (s : Eh T O P W C A) (w : Wait T P C) :
    Option (Bool × W) :=
  match w.caller with
  | .join u => some (decide (s.sched.state u = .finish), s.world)
  | .object c => (sys.condition c).map fun f => f s.self s.world
  | .epoll _ _ => none

def startWait (s : Eh T O P W C A) (w : Wait T P C) : Eh T O P W C A :=
  if w.timeout = ehTimeForever then s.setPoint s.self (.waitAdd w)
  else if w.timeout = 0 then s.setPoint s.self (.returned w ehRetTimeout)
  else s.setPoint s.self (.waitTimer w)

/-- The entry of `eh_event_wait_condition_timeout` or `eh_epoll_wait`. -/
def enter (sys : System T O W C A) (s : Eh T O P W C A) (w : Wait T P C) :
    Eh T O P W C A :=
  match w.caller with
  | .epoll p slotSize =>
    if w.timeout = ehTimeForever then s.setPoint s.self (.waitLoop w)
    else if 0 < w.timeout then s.setPoint s.self (.waitTimer w)
    else
      let read := s.events.ehEpollPendingReadOnLock p slotSize
      { s with events := read.2 }.setPoint s.self
        (.returned w (if read.1.length = 0 then ehRetTimeout else read.1.length))
  | .join _ | .object _ =>
    match s.condition sys w with
    | some (true, world) => { s with world := world }.setPoint s.self (.returned w ehRetOk)
    | some (false, world) => { s with world := world }.startWait w
    | none => s.startWait w

/-- The timer's receptor is linked and the timer started; `eh_timer_start` refuses an interval
below zero. -/
def startTimer (s : Eh T O P W C A) (w : Wait T P C) : Eh T O P W C A :=
  { s with
    events := { s.events with
      receptors := Function.update s.events.receptors (.timer s.self) [.timer s.self]
      flags := Function.update s.events.flags (.timer s.self) .clear }
    timerRunning := Function.update s.timerRunning s.self (0 ≤ w.timeout) }.setPoint s.self
      (match w.caller with
      | .epoll _ _ => .waitLoop w
      | .join _ | .object _ => .waitAdd w)

def linkReceptor (sys : System T O W C A) (s : Eh T O P W C A) (w : Wait T P C) :
    Eh T O P W C A :=
  match w.event sys with
  | some e =>
    { s with
      events := (s.events.setFlags (.wait s.self) .clear).addReceptor e (.wait s.self)
      }.setPoint s.self (.waitLoop w)
  | none => s.setPoint s.self (.waitLoop w)

/-- The test of `receptor_timer`. -/
def checkTimer (s : Eh T O P W C A) (w : Wait T P C) : Option Int :=
  let f := s.events.flags (.timer s.self)
  if w.timed && f.any then some (if f.trigger then ehRetTimeout else ehRetEventError) else none

/-- The tests at the top of the loop: the value to return, if the wait is over, and the state
after them. -/
def check (sys : System T O W C A) (s : Eh T O P W C A) (w : Wait T P C) :
    Option Int × Eh T O P W C A :=
  match w.caller with
  | .epoll p slotSize =>
    let read := s.events.ehEpollPendingReadOnLock p slotSize
    let s' := { s with events := read.2 }
    if read.1.length ≠ 0 then (some read.1.length, s') else (s'.checkTimer w, s')
  | .join _ | .object _ =>
    let f := s.events.flags (.wait s.self)
    match s.condition sys w with
    | some (met, world) =>
      if f.error then (some ehRetEventError, s)
      else if met then (some ehRetOk, { s with world := world })
      else (s.checkTimer w, { s with world := world })
    | none =>
      if f.any then (some (if f.trigger then ehRetOk else ehRetEventError), s)
      else (s.checkTimer w, s)

/-- `unlock_out`, up to the end of the critical section. What has reached the wait is seen. -/
def leaveWait (sys : System T O W C A) (s : Eh T O P W C A) (w : Wait T P C) (ret : Int) :
    Eh T O P W C A :=
  { s with
    events := match w.caller with
      | .epoll p _ => s.events.setEpoll p { s.events.epoll p with wakeupTask := none }
      | .join _ | .object _ =>
        match w.event sys with
        | some e => s.events.removeReceptor e (.wait s.self)
        | none => s.events
    reached := Function.update s.reached s.self false }.setPoint s.self
      (if w.timed then .waitEnd w ret else .returned w ret)

/-- `eh_task_set_current_state(EH_TASK_STATE_WAIT)`, and on to `eh_task_next`. -/
def park (s : Eh T O P W C A) (w : Wait T P C) : Eh T O P W C A :=
  { s with
    sched := s.sched.setState s.self .wait
    events := match w.caller with
      | .epoll p _ => s.events.setEpoll p { s.events.epoll p with wakeupTask := some s.self }
      | .join _ | .object _ => s.events
    reached := Function.update s.reached s.self false }.setPoint s.self (.next (.wait w))

def loopWait (sys : System T O W C A) (s : Eh T O P W C A) (w : Wait T P C) :
    Eh T O P W C A :=
  match s.check sys w with
  | (some ret, s') => s'.leaveWait sys w ret
  | (none, s') => s'.park w

def endWait (s : Eh T O P W C A) (w : Wait T P C) (ret : Int) : Eh T O P W C A :=
  { s with
    timerRunning := Function.update s.timerRunning s.self false
    events := s.events.removeReceptor (.timer s.self) (.timer s.self) }.setPoint s.self
      (.returned w ret)

/-- The caller goes on; `eh_task_join` destroys the task. -/
def afterWait (sys : System T O W C A) (s : Eh T O P W C A) (w : Wait T P C) (ret : Int) :
    Eh T O P W C A :=
  match w.caller with
  | .join u =>
    if ret < 0 then s.setPoint s.self .user
    else (s.signal (.clean (.task u))).setPoint s.self (.destroying u)
  | .object c => { s with world := sys.finish c s.self ret s.world }.setPoint s.self .user
  | .epoll _ _ => s.setPoint s.self .user

/-- `_task_destroy` behind `eh_event_clean`. -/
def destroy (s : Eh T O P W C A) (u : T) : Eh T O P W C A :=
  { s with
    sched := s.sched.ehListDel u
    alive := Function.update s.alive u false }

/-- The test of the loop of `_task_auto_destruct` at `pos`; behind the loop `eh_poll` ends. -/
def autoDestruct (s : Eh T O P W C A) (pos : Node T) (idle : Bool) (k : After T P C) :
    Eh T O P W C A :=
  if pos = .taskFinishAutoDestructListHead then
    { s with sched := { s.sched with autoDestructTask := false } }.setPoint s.self
      (if idle then .nextCheck k else .nextLoop k)
  else s.setPoint s.self (.poll (.destroy pos (s.sched.links.next pos)) idle k)

def pollStep (s : Eh T O P W C A) (idle : Bool) (k : After T P C) :
    PollPoint T → Option (Eh T O P W C A)
  | .start =>
    if s.sched.autoDestructTask then
      some (s.autoDestruct (s.sched.links.next .taskFinishAutoDestructListHead) idle k)
    else some (s.setPoint s.self (if idle then .nextCheck k else .nextLoop k))
  | .destroy pos n =>
    match pos with
    | .task u =>
      some ((s.signal (.clean (.task u))).setPoint s.self (.poll (.unlink pos n) idle k))
    | _ => none
  | .unlink pos n =>
    match pos with
    | .task u => some ((s.destroy u).autoDestruct n idle k)
    | _ => none

/-- `eh_task_next` returns. -/
def continueAt (s : Eh T O P W C A) : After T P C → Option (Eh T O P W C A)
  | .yield => some (s.setPoint s.self .user)
  | .finished => none
  | .wait w => some (s.setPoint s.self (.waitLoop w))

def startPoll (s : Eh T O P W C A) (idle : Bool) (k : After T P C) : Eh T O P W C A :=
  { s with sincePoll := 0 }.setPoint s.self (.poll .start idle k)

def nextStep (sys : System T O W C A) (s : Eh T O P W C A) (k : After T P C) :
    Eh T O P W C A :=
  if s.sched.dispatchCnt % sys.dispatchCntPerPoll = 0 then s.startPoll false k
  else s.setPoint s.self (.nextLoop k)

/-- The loop of `eh_task_next`: an idle pass, or the switch. -/
def dispatch (s : Eh T O P W C A) (k : After T P C) : Option (Eh T O P W C A) :=
  if s.sched.ringEmpty then some (s.startPoll true k)
  else
    match s.sched.links.next (.task s.self) with
    | .task u =>
      some { s.setPoint s.self (.resumed k) with
        sched := s.sched.switchTo u
        sincePoll := s.sincePoll + 1 }
    | _ => none

def idleCheck (s : Eh T O P W C A) (k : After T P C) : Option (Eh T O P W C A) :=
  if s.sched.state s.self = .runing ∨ s.sched.state s.self = .ready then
    { s with sched := s.sched.setState s.self .runing }.continueAt k
  else some (s.setPoint s.self (.nextLoop k))

def resume (s : Eh T O P W C A) (k : After T P C) : Option (Eh T O P W C A) :=
  { s with
    sched := { s.sched with dispatchCnt := (s.sched.dispatchCnt + 1) % 2 ^ 32 } }.continueAt k

def actStep (sys : System T O W C A) (s : Eh T O P W C A) (a : A) : Eh T O P W C A :=
  (s.perform sys a).setPoint s.self
    (match (sys.act a s.self s.world).rest with
    | none => .user
    | some a => .acting a)

def go (sys : System T O W C A) (s : Eh T O P W C A) : Option (Eh T O P W C A) :=
  match s.point s.self with
  | .fresh => some (s.setPoint s.self .user)
  | .user => none
  | .acting a => some (s.actStep sys a)
  | .waitTimer w => some (s.startTimer w)
  | .waitAdd w => some (s.linkReceptor sys w)
  | .waitLoop w => some (s.loopWait sys w)
  | .waitEnd w ret => some (s.endWait w ret)
  | .returned w ret => some (s.afterWait sys w ret)
  | .destroying u => some ((s.destroy u).setPoint s.self .user)
  | .finishing => some ((s.signal (.notify (.task s.self))).setPoint s.self (.next .finished))
  | .next k => some (s.nextStep sys k)
  | .poll p idle k => s.pollStep idle k p
  | .nextLoop k => s.dispatch k
  | .nextCheck k => s.idleCheck k
  | .resumed k => s.resume k

def allocated (s : Eh T O P W C A) : EhEvent T O → Bool
  | .object _ => true
  | .task u => s.alive u
  | .timer _ => false

def create (s : Eh T O P W C A) (t : T) (isSystemTask isAutoDestruct : Bool) :
    Eh T O P W C A :=
  { s with
    sched := s.sched.ehTaskCreate t isSystemTask isAutoDestruct
    events := { s.events with receptors := Function.update s.events.receptors (.task t) [] }
    alive := Function.update s.alive t true
    reached := Function.update s.reached t false }.setPoint t .fresh

def ehEpollAddEvent (s : Eh T O P W C A) (p : P) (e : EhEvent T O) : Eh T O P W C A :=
  if s.registered p e then s
  else
    { s with
      registered := Function.update s.registered p (Function.update (s.registered p) e true)
      events := (s.events.setFlags (.epoll p e) .clear).addReceptor e (.epoll p e) }

def ehEpollDelEvent (s : Eh T O P W C A) (p : P) (e : EhEvent T O) : Eh T O P W C A :=
  if s.registered p e then
    { s with
      registered := Function.update s.registered p (Function.update (s.registered p) e false)
      events := (s.events.removeReceptor e (.epoll p e)).setEpoll p
        { s.events.epoll p with pending := (s.events.epoll p).pending.erase e } }
  else s

def user (sys : System T O W C A) (s : Eh T O P W C A) :
    Label T O P C A → Option (Eh T O P W C A)
  | .wait w =>
    match w.caller with
    | .join u => if s.alive u then some (s.enter sys w) else none
    | .object _ | .epoll _ _ => some (s.enter sys w)
  | .act a => if sys.fromTask a then some (s.actStep sys a) else none
  | .create t isSystemTask isAutoDestruct =>
    if s.alive t then none else some (s.create t isSystemTask isAutoDestruct)
  | .yield => some (s.setPoint s.self (.next .yield))
  | .ret =>
    if s.self = s.sched.mainTask then none
    else some ({ s with sched := s.sched.setState s.self .finish }.setPoint s.self .finishing)
  | .exit =>
    if s.self = s.sched.mainTask then some (s.setPoint s.self (.next .yield))
    else some (({ s with sched := s.sched.setState s.self .finish }.signal
      (.notify (.task s.self))).setPoint s.self (.next .finished))
  | .epollAdd p e => if s.allocated e then some (s.ehEpollAddEvent p e) else none
  | .epollDel p e => some (s.ehEpollDelEvent p e)
  | _ => none

def step (sys : System T O W C A) (s : Eh T O P W C A) :
    Label T O P C A → Option (Eh T O P W C A)
  | .go => s.go sys
  | .signal g =>
    match g with
    | .notify e | .notifyAndReorder e _ | .clean e =>
      if s.allocated e then some (s.signal g) else none
  | .wakeUp t => if s.alive t then some (s.wakeUp t) else none
  | .expire t => some (s.expire t)
  | .interrupt a =>
    if sys.fromInterrupt a then
      some { s.perform sys a with
        calls := s.calls ++ (sys.act a s.self s.world).rest.toList }
    else none
  | .interruptGo i =>
    match s.calls[i]? with
    | some a =>
      some { s.perform sys a with
        calls := s.calls.eraseIdx i ++ (sys.act a s.self s.world).rest.toList }
    | none => none
  | l =>
    match s.point s.self with
    | .user => s.user sys l
    | _ => none

/-- The kinds of steps: of the running task inside a call, of the running task outside, and of
the other contexts. -/
inductive Steps (sys : System T O W C A) (s : Eh T O P W C A) :
    Label T O P C A → Eh T O P W C A → Prop
  | go {s' : Eh T O P W C A} : s.go sys = some s' → Steps sys s .go s'
  | user {l : Label T O P C A} {s' : Eh T O P W C A} :
      s.point s.self = .user → s.user sys l = some s' → Steps sys s l s'
  | signal (g : Signal (EhEvent T O)) : Steps sys s (.signal g) (s.signal g)
  | wakeUp {t : T} : s.alive t = true → Steps sys s (.wakeUp t) (s.wakeUp t)
  | expire (t : T) : Steps sys s (.expire t) (s.expire t)
  | interrupt {a : A} : sys.fromInterrupt a = true → Steps sys s (.interrupt a)
      { s.perform sys a with calls := s.calls ++ (sys.act a s.self s.world).rest.toList }
  | interruptGo {i : Nat} {a : A} : s.calls[i]? = some a → Steps sys s (.interruptGo i)
      { s.perform sys a with
        calls := s.calls.eraseIdx i ++ (sys.act a s.self s.world).rest.toList }

theorem step_cases {sys : System T O W C A} {s s' : Eh T O P W C A} {l : Label T O P C A}
    (step : s.step sys l = some s') : Steps sys s l s' := by
  cases l with
  | go => exact .go step
  | signal g =>
    cases g with
    | _ =>
      simp only [Eh.step] at step
      split at step <;> cases step
      exact .signal _
  | wakeUp t =>
    simp only [Eh.step] at step
    split at step
    · next live =>
      cases step
      exact .wakeUp live
    · cases step
  | expire t =>
    cases step
    exact .expire t
  | interrupt a =>
    simp only [Eh.step] at step
    split at step
    · next allowed =>
      cases step
      exact .interrupt allowed
    · cases step
  | interruptGo i =>
    simp only [Eh.step] at step
    split at step
    · next at_ =>
      cases step
      exact .interruptGo at_
    · cases step
  | _ =>
    simp only [Eh.step] at step
    split at step
    · next at_ => exact .user at_ step
    · cases step

inductive UserSteps (sys : System T O W C A) (s : Eh T O P W C A) :
    Label T O P C A → Eh T O P W C A → Prop
  | wait {w : Wait T P C} : (∀ u, w.caller = .join u → s.alive u = true) →
      UserSteps sys s (.wait w) (s.enter sys w)
  | act {a : A} : sys.fromTask a = true → UserSteps sys s (.act a) (s.actStep sys a)
  | create {t : T} (system auto : Bool) : s.alive t = false →
      UserSteps sys s (.create t system auto) (s.create t system auto)
  | yield : UserSteps sys s .yield (s.setPoint s.self (.next .yield))
  | ret : s.self ≠ s.sched.mainTask → UserSteps sys s .ret
      ({ s with sched := s.sched.setState s.self .finish }.setPoint s.self .finishing)
  | exitMain : s.self = s.sched.mainTask →
      UserSteps sys s .exit (s.setPoint s.self (.next .yield))
  | exit : s.self ≠ s.sched.mainTask → UserSteps sys s .exit
      (({ s with sched := s.sched.setState s.self .finish }.signal
        (.notify (.task s.self))).setPoint s.self (.next .finished))
  | epollAdd {p : P} {e : EhEvent T O} : s.allocated e = true →
      UserSteps sys s (.epollAdd p e) (s.ehEpollAddEvent p e)
  | epollDel (p : P) (e : EhEvent T O) : UserSteps sys s (.epollDel p e) (s.ehEpollDelEvent p e)

theorem user_cases {sys : System T O W C A} {s s' : Eh T O P W C A} {l : Label T O P C A}
    (step : s.user sys l = some s') : UserSteps sys s l s' := by
  cases l with
  | wait w =>
    obtain ⟨caller, timeout⟩ := w
    cases caller with
    | join u =>
      simp only [Eh.user] at step
      split at step
      · next live =>
        cases step
        refine .wait fun v eq => ?_
        cases eq
        exact live
      · cases step
    | _ =>
      cases step
      refine .wait fun v eq => ?_
      cases eq
  | act a =>
    simp only [Eh.user] at step
    split at step
    · next allowed =>
      cases step
      exact .act allowed
    · cases step
  | create t system auto =>
    simp only [Eh.user] at step
    split at step
    · cases step
    · next dead =>
      cases step
      exact .create system auto (Bool.not_eq_true _ ▸ dead)
  | yield =>
    cases step
    exact .yield
  | ret =>
    simp only [Eh.user] at step
    split at step
    · cases step
    · next other =>
      cases step
      exact .ret other
  | exit =>
    simp only [Eh.user] at step
    split at step
    · next main =>
      cases step
      exact .exitMain main
    · next other =>
      cases step
      exact .exit other
  | epollAdd p e =>
    simp only [Eh.user] at step
    split at step
    · next ok =>
      cases step
      exact .epollAdd ok
    · cases step
  | epollDel p e =>
    cases step
    exact .epollDel p e
  | _ => cases step

/-- The state behind `eh_global_init`: the main task runs. -/
def init (main : T) (world : W) : Eh T O P W C A where
  sched :=
    { links := ⟨id, id⟩
      task := fun _ => ⟨.runing, false, false⟩
      currentTask := main
      mainTask := main
      dispatchCnt := 0
      autoDestructTask := false }
  events := ⟨fun _ => [], fun _ => .clear, fun _ => ⟨[], none⟩⟩
  registered _ _ := false
  timerRunning _ := false
  alive t := t = main
  point _ := .user
  world := world
  calls := []
  reached _ := false
  sincePoll := 0

def Reachable (sys : System T O W C A) (main : T) (world : W) (s : Eh T O P W C A) : Prop :=
  ∃ ls, Run (fun s l t => step sys s l = some t) (init main world) ls s

end Eh

end EventHub.Kernel
