import EventHub.Kernel.Polling

/-! What a run is to the objects: an abstract machine of queues. It has one running task, the
shared data, the queue of every object and the tasks that sleep in a wait; the scheduler, the
timers and the ways through `eh_task_next` are gone. -/

namespace EventHub.Kernel
open Library Event

/-- How far the running task is in a call of an object: in none, in the rest of a call, or with
the value that a wait returns. -/
inductive Phase (C A : Type) where
  | idle
  | acting (a : A)
  | verdict (c : C) (ret : Int)

structure View (T O P W C A : Type) where
  self : T
  phase : Phase C A
  world : W
  /-- The rests of the calls made in other contexts. -/
  calls : List A
  queue : O → List (Receptor (EhEvent T O) T P)
  /-- The wait in which the task sleeps. -/
  sleeping : T → Option C

variable {T O P W C A : Type}

section Step

/-- The condition of a wait is tested. A wait without one depends on its receptor alone. -/
def System.Tested (sys : System T O W C A) (c : C) (t : T) (world : W) (met : Bool)
    (world' : W) : Prop :=
  match sys.condition c with
  | some f => f t world = (met, world')
  | none => world' = world

namespace Signal

def reached : Option (Signal O) → (O → List (Receptor (EhEvent T O) T P)) →
    List (Receptor (EhEvent T O) T P)
  | none, _ => []
  | some (.notify o), queue | some (.clean o), queue => queue o
  | some (.notifyAndReorder o num), queue => (queue o).take num.toNat

variable [DecidableEq O]

def after : Option (Signal O) → (O → List (Receptor (EhEvent T O) T P)) →
    O → List (Receptor (EhEvent T O) T P)
  | none, queue | some (.notify _), queue => queue
  | some (.clean o), queue => Function.update queue o []
  | some (.notifyAndReorder o num), queue =>
    Function.update queue o ((queue o).drop num.toNat ++ (queue o).take num.toNat)

end Signal

namespace View

def init (main : T) (world : W) : View T O P W C A :=
  ⟨main, .idle, world, [], fun _ => [], fun _ => none⟩

/-- Who sleeps behind a signal: nobody falls asleep, and those reached are awake. -/
structure Woken (v : View T O P W C A) (g : Option (Signal O)) (sleeping : T → Option C) :
    Prop where
  kept : ∀ t, sleeping t = v.sleeping t ∨ sleeping t = none
  reached : ∀ t, .wait t ∈ Signal.reached g v.queue → sleeping t = none

structure Running (v : View T O P W C A) : Prop where
  idle : v.phase = .idle
  awake : v.sleeping v.self = none

def resting : Option A → Phase C A
  | none => .idle
  | some a => .acting a

variable [DecidableEq T] [DecidableEq O] [DecidableEq P]

def leave (sys : System T O W C A) (v : View T O P W C A) (c : C) :
    O → List (Receptor (EhEvent T O) T P) :=
  Function.update v.queue (sys.event c) ((v.queue (sys.event c)).erase (.wait v.self))

/-- The steps of the abstract machine, with the wait whose condition a step finds met. -/
inductive Step (sys : System T O W C A) (v : View T O P W C A) :
    Option C → View T O P W C A → Prop
  | switch {u : T} : v.phase = .idle → v.sleeping u = none → Step sys v none { v with self := u }
  | test {c : C} {world : W} : v.Running → sys.Tested c v.self v.world false world →
      Step sys v none { v with world := world }
  | join {c : C} : v.Running → (∀ o, .wait v.self ∉ v.queue o) →
      Step sys v none { v with
        queue := Function.update v.queue (sys.event c)
          (v.queue (sys.event c) ++ [.wait v.self]) }
  | met {c : C} {world : W} : v.Running → sys.Tested c v.self v.world true world →
      Step sys v (some c) { v with
        world := world
        phase := .verdict c ehRetOk
        queue := v.leave sys c }
  | triggered {c : C} : v.Running → sys.condition c = none →
      Step sys v none { v with
        phase := .verdict c ehRetOk
        queue := v.leave sys c }
  | refused {c : C} {world : W} {ret : Int} : v.Running →
      sys.Tested c v.self v.world false world → ret = ehRetTimeout ∨ ret = ehRetEventError →
      Step sys v none { v with
        world := world
        phase := .verdict c ret
        queue := v.leave sys c }
  | failed {c : C} : v.Running → (∀ o, .wait v.self ∉ v.queue o) →
      Step sys v none { v with phase := .verdict c ehRetEventError }
  | park {c : C} {world : W} : v.Running → sys.Tested c v.self v.world false world →
      .wait v.self ∈ v.queue (sys.event c) →
      Step sys v none { v with
        world := world
        sleeping := Function.update v.sleeping v.self (some c) }
  | finish {c : C} {ret : Int} : v.phase = .verdict c ret →
      Step sys v none { v with
        world := sys.finish c v.self ret v.world
        phase := .idle }
  | act {a : A} {sleeping : T → Option C} :
      v.phase = .idle ∧ sys.fromTask a = true ∨ v.phase = .acting a →
      v.Woken (sys.act a v.self v.world).signal sleeping →
      Step sys v none { v with
        world := (sys.act a v.self v.world).world
        phase := resting (sys.act a v.self v.world).rest
        queue := Signal.after (sys.act a v.self v.world).signal v.queue
        sleeping := sleeping }
  | interrupt {a : A} {calls : List A} {sleeping : T → Option C} :
      sys.fromInterrupt a = true ∧ calls = v.calls ∨
        (∃ i, v.calls[i]? = some a ∧ calls = v.calls.eraseIdx i) →
      v.Woken (sys.act a v.self v.world).signal sleeping →
      Step sys v none { v with
        world := (sys.act a v.self v.world).world
        calls := calls ++ (sys.act a v.self v.world).rest.toList
        queue := Signal.after (sys.act a v.self v.world).signal v.queue
        sleeping := sleeping }
  | signal {g : Option (Signal O)} {sleeping : T → Option C} : v.Woken g sleeping →
      Step sys v none { v with queue := Signal.after g v.queue, sleeping := sleeping }
  | unwatch {p : P} {o : O} :
      Step sys v none { v with
        queue := Function.update v.queue o ((v.queue o).erase (.epoll p (.object o))) }

/-- What one step of the system may be: nothing, or a step that finds no condition met but
this one. -/
inductive Steps (sys : System T O W C A) (tests : Option C) (v : View T O P W C A) :
    View T O P W C A → Prop
  | refl : Steps sys tests v v
  | single {v' : View T O P W C A} : Step sys v none v' → Steps sys tests v v'
  | met {c : C} {v' : View T O P W C A} : tests = some c → Step sys v (some c) v' →
      Steps sys tests v v'

theorem Steps.of_eq {sys : System T O W C A} {tests : Option C} {v v' : View T O P W C A}
    (eq : v' = v) : Steps sys tests v v' :=
  eq ▸ .refl

def watch (v : View T O P W C A) (p : P) (o : O) : View T O P W C A :=
  { v with queue := Function.update v.queue o (v.queue o ++ [.epoll p (.object o)]) }

end View
end Step

def Point.phase : Point T P C A → Phase C A
  | .acting a => .acting a
  | .waitEnd w ret | .returned w ret =>
    match w.caller with
    | .object c => .verdict c ret
    | .join _ | .epoll _ _ => .idle
  | _ => .idle

def Point.waitsOn (p : Point T P C A) : Option C :=
  match p.waits with
  | some ⟨.object c, _⟩ => some c
  | _ => none

/-- The wait on an object whose condition the running task tests in this step. -/
def Wait.on (w : Wait T P C) : Option C :=
  match w.caller with
  | .object c => some c
  | .join _ | .epoll _ _ => none

def Eh.tests (s : Eh T O P W C A) : Label T O P C A → Option C
  | .wait w => w.on
  | .go =>
    match s.point s.self with
    | .waitLoop w => if (s.events.flags (.wait s.self)).error then none else w.on
    | _ => none
  | _ => none

def Eh.view (s : Eh T O P W C A) : View T O P W C A where
  self := s.self
  phase := (s.point s.self).phase
  world := s.world
  calls := s.calls
  queue o := s.events.receptors (.object o)
  sleeping t := if s.alive t = true ∧ s.sched.state t = .wait then (s.point t).waitsOn else none

end EventHub.Kernel
