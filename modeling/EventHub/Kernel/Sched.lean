import EventHub.Library.Rings

/-! The scheduler's tasks. The ready tasks are linked in a ring through the current task,
which has no head of its own; a task that waits or has finished is in a list with a head. -/

namespace EventHub.Kernel
open Library

inductive TaskState where
  | ready
  | runing
  | wait
  | finish
deriving DecidableEq

structure EhTask where
  state : TaskState
  isSystemTask : Bool
  isAutoDestruct : Bool
deriving DecidableEq

/-- What a `list_node` pointer of the scheduler points to. -/
inductive Node (T : Type) where
  | task (t : T)
  | taskWaitListHead
  | taskFinishListHead
  | taskFinishAutoDestructListHead
  | null
deriving DecidableEq

structure Sched (T : Type) where
  links : Links (Node T)
  task : T → EhTask
  currentTask : T
  mainTask : T
  dispatchCnt : Nat
  /-- `auto_destruct_task` is linked in `loop_poll_task_head`. -/
  autoDestructTask : Bool

namespace Sched
variable {T : Type} [DecidableEq T]

def state (s : Sched T) (t : T) : TaskState := (s.task t).state

def setState (s : Sched T) (t : T) (state : TaskState) : Sched T :=
  { s with task := Function.update s.task t { s.task t with state := state } }

/-- `eh_list_empty` at the current task. -/
def ringEmpty (s : Sched T) : Bool :=
  s.links.next (.task s.currentTask) = .task s.currentTask

def ehTaskWakeUp (s : Sched T) (wakeupTask : T) : Sched T :=
  if s.state wakeupTask ≠ .wait then s
  else if wakeupTask = s.currentTask then s.setState wakeupTask .ready
  else if (s.task wakeupTask).isSystemTask then
    { s.setState wakeupTask .ready with
      links := s.links.move (.task wakeupTask) (.task s.currentTask) }
  else
    { s.setState wakeupTask .ready with
      links := s.links.moveTail (.task wakeupTask) (.task s.currentTask) }

/-- The `switch` of `eh_task_next`, for the task that gives the processor up. -/
def putAway (s : Sched T) (t : T) : Sched T :=
  match s.state t with
  | .ready | .runing => s.setState t .ready
  | .wait => { s with links := s.links.moveTail (.task t) .taskWaitListHead }
  | .finish =>
    if (s.task t).isAutoDestruct then
      { s with
        links := s.links.moveTail (.task t) .taskFinishAutoDestructListHead
        autoDestructTask := true }
    else { s with links := s.links.moveTail (.task t) .taskFinishListHead }

/-- From `eh_task_set_current` to the end of the critical section of `eh_task_next`. -/
def switchTo (s : Sched T) (toTask : T) : Sched T :=
  ({ s with currentTask := toTask }.putAway s.currentTask).setState toTask .runing

/-- `_eh_task_struct_init` and `eh_task_wake_up`, for a task at a new address. -/
def ehTaskCreate (s : Sched T) (t : T) (isSystemTask isAutoDestruct : Bool) : Sched T :=
  { s with
    links := s.links.alone (.task t)
    task := Function.update s.task t ⟨.wait, isSystemTask, isAutoDestruct⟩ }.ehTaskWakeUp t

/-- `eh_list_del` on the node of a task. -/
def ehListDel (s : Sched T) (t : T) : Sched T :=
  { s with
    links := ((s.links.unlink (.task t)).setNext (.task t) .null).setPrev (.task t) .null }

@[simp] theorem setState_state (s : Sched T) (t u : T) (st : TaskState) :
    (s.setState t st).state u = if u = t then st else s.state u := by
  by_cases eq : u = t
  · simp [state, setState, eq]
  · simp [state, setState, eq]

@[simp] theorem setState_links (s : Sched T) (t : T) (st : TaskState) :
    (s.setState t st).links = s.links := rfl

@[simp] theorem setState_currentTask (s : Sched T) (t : T) (st : TaskState) :
    (s.setState t st).currentTask = s.currentTask := rfl

@[simp] theorem setState_dispatchCnt (s : Sched T) (t : T) (st : TaskState) :
    (s.setState t st).dispatchCnt = s.dispatchCnt := rfl

@[simp] theorem setState_isSystemTask (s : Sched T) (t u : T) (st : TaskState) :
    ((s.setState t st).task u).isSystemTask = (s.task u).isSystemTask := by
  by_cases eq : u = t
  · simp [setState, eq]
  · simp [setState, eq]

@[simp] theorem setState_isAutoDestruct (s : Sched T) (t u : T) (st : TaskState) :
    ((s.setState t st).task u).isAutoDestruct = (s.task u).isAutoDestruct := by
  by_cases eq : u = t
  · simp [setState, eq]
  · simp [setState, eq]

@[simp] theorem ehTaskWakeUp_state (s : Sched T) (t u : T) :
    (s.ehTaskWakeUp t).state u = if u = t ∧ s.state t = .wait then .ready else s.state u := by
  rw [ehTaskWakeUp]
  split
  · next ne => simp [ne]
  · next eq =>
    have waits : s.state t = .wait := not_not.mp eq
    have ready : (s.setState t .ready).state u =
        if u = t ∧ s.state t = .wait then .ready else s.state u := by
      simp [waits]
    split
    · exact ready
    · split <;> exact ready

@[simp] theorem ehTaskWakeUp_currentTask (s : Sched T) (t : T) :
    (s.ehTaskWakeUp t).currentTask = s.currentTask := by
  rw [ehTaskWakeUp]
  split_ifs <;> rfl

@[simp] theorem ehTaskWakeUp_dispatchCnt (s : Sched T) (t : T) :
    (s.ehTaskWakeUp t).dispatchCnt = s.dispatchCnt := by
  rw [ehTaskWakeUp]
  split_ifs <;> rfl

@[simp] theorem ehTaskWakeUp_mainTask (s : Sched T) (t : T) :
    (s.ehTaskWakeUp t).mainTask = s.mainTask := by
  rw [ehTaskWakeUp]
  split_ifs <;> rfl

@[simp] theorem ehTaskWakeUp_isAutoDestruct (s : Sched T) (t u : T) :
    ((s.ehTaskWakeUp t).task u).isAutoDestruct = (s.task u).isAutoDestruct := by
  rw [ehTaskWakeUp]
  split_ifs <;> first | rfl | exact setState_isAutoDestruct s t u .ready

@[simp] theorem switchTo_currentTask (s : Sched T) (toTask : T) :
    (s.switchTo toTask).currentTask = toTask := by
  rw [switchTo, setState_currentTask, putAway]
  split
  · rfl
  · rfl
  · rfl
  · split <;> rfl

@[simp] theorem switchTo_dispatchCnt (s : Sched T) (toTask : T) :
    (s.switchTo toTask).dispatchCnt = s.dispatchCnt := by
  rw [switchTo, setState_dispatchCnt, putAway]
  split
  · rfl
  · rfl
  · rfl
  · split <;> rfl

/-! Several wake-ups in a row. -/

theorem foldl_wakeUp_state (ts : List T) (s : Sched T) (u : T) :
    (ts.foldl ehTaskWakeUp s).state u =
      if u ∈ ts ∧ s.state u = .wait then .ready else s.state u := by
  induction ts generalizing s with
  | nil => simp
  | cons t ts ih =>
    rw [List.foldl_cons, ih]
    by_cases eq : u = t
    · subst eq
      by_cases waits : s.state u = .wait <;> simp [waits]
    · simp [eq]

@[simp] theorem foldl_wakeUp_currentTask (ts : List T) (s : Sched T) :
    (ts.foldl ehTaskWakeUp s).currentTask = s.currentTask := by
  induction ts generalizing s with
  | nil => rfl
  | cons t ts ih => rw [List.foldl_cons, ih, ehTaskWakeUp_currentTask]

@[simp] theorem foldl_wakeUp_mainTask (ts : List T) (s : Sched T) :
    (ts.foldl ehTaskWakeUp s).mainTask = s.mainTask := by
  induction ts generalizing s with
  | nil => rfl
  | cons t ts ih => rw [List.foldl_cons, ih, ehTaskWakeUp_mainTask]

@[simp] theorem foldl_wakeUp_dispatchCnt (ts : List T) (s : Sched T) :
    (ts.foldl ehTaskWakeUp s).dispatchCnt = s.dispatchCnt := by
  induction ts generalizing s with
  | nil => rfl
  | cons t ts ih => rw [List.foldl_cons, ih, ehTaskWakeUp_dispatchCnt]

theorem putAway_state (s : Sched T) (t u : T) :
    (s.putAway t).state u =
      if u = t ∧ s.state u = .runing then .ready else s.state u := by
  cases st : s.state t with
  | ready =>
    simp only [putAway, st]
    by_cases eq : u = t <;> simp [eq, st]
  | runing =>
    simp only [putAway, st]
    by_cases eq : u = t <;> simp [eq, st]
  | wait =>
    have kept : (s.putAway t).state u = s.state u := by
      simp only [putAway, st]
      rfl
    rw [kept]
    by_cases eq : u = t <;> simp [eq, st]
  | finish =>
    have kept : (s.putAway t).state u = s.state u := by
      simp only [putAway, st]
      split <;> rfl
    rw [kept]
    by_cases eq : u = t <;> simp [eq, st]

theorem switchTo_state (s : Sched T) (toTask u : T) :
    (s.switchTo toTask).state u =
      if u = toTask then .runing
      else if u = s.currentTask ∧ s.state u = .runing then .ready
      else s.state u := by
  rw [switchTo, setState_state, putAway_state]
  rfl

@[simp] theorem switchTo_isAutoDestruct (s : Sched T) (toTask u : T) :
    ((s.switchTo toTask).task u).isAutoDestruct = (s.task u).isAutoDestruct := by
  rw [switchTo, setState_isAutoDestruct, putAway]
  split
  · rw [setState_isAutoDestruct]
  · rw [setState_isAutoDestruct]
  · rfl
  · split <;> rfl

theorem switchTo_links (s : Sched T) (toTask : T) :
    (s.switchTo toTask).links =
      match s.state s.currentTask with
      | .ready | .runing => s.links
      | .wait => s.links.moveTail (.task s.currentTask) .taskWaitListHead
      | .finish =>
        if (s.task s.currentTask).isAutoDestruct then
          s.links.moveTail (.task s.currentTask) .taskFinishAutoDestructListHead
        else s.links.moveTail (.task s.currentTask) .taskFinishListHead := by
  have same : state { s with currentTask := toTask } s.currentTask = s.state s.currentTask :=
    rfl
  rw [switchTo, setState_links, putAway, same]
  cases s.state s.currentTask
  · rfl
  · rfl
  · rfl
  · dsimp only
    split <;> rfl

@[simp] theorem ehTaskCreate_currentTask (s : Sched T) (t : T) (sys auto : Bool) :
    (s.ehTaskCreate t sys auto).currentTask = s.currentTask := by
  simp [ehTaskCreate]

@[simp] theorem ehTaskCreate_dispatchCnt (s : Sched T) (t : T) (sys auto : Bool) :
    (s.ehTaskCreate t sys auto).dispatchCnt = s.dispatchCnt := by
  simp [ehTaskCreate]

@[simp] theorem ehTaskCreate_state (s : Sched T) (t u : T) (sys auto : Bool) :
    (s.ehTaskCreate t sys auto).state u = if u = t then .ready else s.state u := by
  rw [ehTaskCreate, ehTaskWakeUp_state]
  by_cases eq : u = t <;> simp [state, eq]

end Sched

end EventHub.Kernel
