import EventHub.Event.Epoll
import EventHub.Library.Placing

/-! Slot functions connected to events. The events that the slots of a task are connected to are
registered in an epoll of the task, each with a trigger; `eh_event_loop` calls the slots of the
triggers that the epoll reports. The labels between two steps of a dispatch are what the slot
function does, and what other tasks do where it blocks. -/

namespace EventHub.EventCb
open Library Kernel Event

/-- The heads of the lists that `cb_node` is linked in. `used_tmp_list` is local to the dispatch
of the trigger. -/
inductive ListHead (A : Type) where
  | cbHead (trigger : A)
  | usedTmpList (trigger : A)
deriving DecidableEq

/-- `eh_event_cb_trigger`; its `cb_head` is among the lists. -/
structure Trigger where
  connectCnt : BitVec 31
  forcedRef : Bool
deriving DecidableEq

structure Mallocs (A : Type) where
  epoll : Bool
  /-- The receptor for the event of the task itself. -/
  ownReceptor : Bool
  receptor : Bool
  trigger : Option A

/-- The epoll of a task is known by the task. -/
@[ext] structure SlotLayer (T E S A : Type) where
  events : Events E T T
  /-- `system_data` is set. -/
  hasEpoll : T → Bool
  /-- The receptors in the trees, with their userdata. -/
  receptor : T → E → Option (Option A)
  trigger : A → Option Trigger
  cbNodes : Placing (ListHead A) S
  slotTask : S → Option T
  /-- What is left of `epool_slot` in `eh_event_loop`, from the slot that is dealt with. -/
  loop : T → Option (List (EpollSlot E A))
  /-- How often a trigger was allocated at an address, and freed. -/
  news : A → Nat
  frees : A → Nat

inductive SlotLabel (T E S A : Type) where
  | connect (e : E) (s : S) (t : T) (mem : Mallocs A)
  | disconnect (e : E) (s : S)
  | cleanFromTask (e : E) (t : T)
  | notify (e : E)
  | notifyAndReorder (e : E) (num : Int)
  | clean (e : E)
  | enterLoop (t : T) (mem : Mallocs A)
  | wait (t : T)
  | next (t : T)

def ehRetInvalidParam : Int := -2

def ehEventCbEpollSlotSize : Nat := 8

namespace SlotLayer
variable {T E S A : Type}

def init : SlotLayer T E S A where
  events := ⟨fun _ => [], fun _ => .clear, fun _ => ⟨[], none⟩⟩
  hasEpoll _ := false
  receptor _ _ := none
  trigger _ := none
  cbNodes := ⟨fun _ => [], fun _ => none⟩
  slotTask _ := none
  loop _ := none
  news _ := 0
  frees _ := 0

/-- The triggers that the rest of the batch refers to. -/
def pinned (L : SlotLayer T E S A) (t : T) : List A :=
  ((L.loop t).getD []).filterMap EpollSlot.userdata

/-- The trigger that is dealt with. -/
def dispatching (L : SlotLayer T E S A) (t : T) : Option A :=
  (L.loop t).bind fun slots => slots.head?.bind EpollSlot.userdata

/-- The slots linked to a trigger, in `cb_head` or in the temporary list of its dispatch. -/
def slots (L : SlotLayer T E S A) (a : A) : List S :=
  L.cbNodes.list (.cbHead a) ++ L.cbNodes.list (.usedTmpList a)

variable [DecidableEq T] [DecidableEq E] [DecidableEq S] [DecidableEq A]

def setReceptor (L : SlotLayer T E S A) (t : T) (e : E) (r : Option (Option A)) :
    SlotLayer T E S A :=
  { L with receptor := Function.update L.receptor t (Function.update (L.receptor t) e r) }

def setLoop (L : SlotLayer T E S A) (t : T) (slots : Option (List (EpollSlot E A))) :
    SlotLayer T E S A :=
  { L with loop := Function.update L.loop t slots }

/-! The epoll. -/

def newReceptor (L : SlotLayer T E S A) (t : T) (e : E) : SlotLayer T E S A :=
  { L.setReceptor t e (some none) with
    events := (L.events.setFlags (.epoll t e) .clear).addReceptor e (.epoll t e) }

def ehEpollAddEventAdvanced (L : SlotLayer T E S A) (t : T) (e : E) (memory : Bool) :
    Int × SlotLayer T E S A :=
  match L.receptor t e with
  | some _ => (ehRetExists, L)
  | none => if memory then (ehRetOk, L.newReceptor t e) else (ehRetMallocError, L)

/-- `eh_epoll_del_event`, or `eh_epoll_del_event_from_handle_no_lock` where the receptor is
found. -/
def ehEpollDelEvent (L : SlotLayer T E S A) (t : T) (e : E) : SlotLayer T E S A :=
  match L.receptor t e with
  | none => L
  | some _ =>
    { L.setReceptor t e none with
      events := (L.events.removeReceptor e (.epoll t e)).setEpoll t
        { L.events.epoll t with pending := (L.events.epoll t).pending.erase e } }

variable (taskEvent : T → E)

/-- Where the second allocation fails the new epoll is deleted again. -/
def taskGetEpollTryNew (L : SlotLayer T E S A) (t : T) (mem : Mallocs A) :
    Int × SlotLayer T E S A :=
  if L.hasEpoll t then (ehRetOk, L)
  else if mem.epoll = false then (ehRetMallocError, L)
  else if mem.ownReceptor = false then (ehRetMallocError, L)
  else
    let empty : SlotLayer T E S A :=
      { L with
        receptor := Function.update L.receptor t fun _ => none
        events := L.events.setEpoll t ⟨[], none⟩
        hasEpoll := Function.update L.hasEpoll t true }
    (ehRetOk, empty.newReceptor t (taskEvent t))

/-! The triggers. A function that follows a pointer to a freed trigger, or `NULL`, has no
result. -/

def setTrigger (L : SlotLayer T E S A) (a : A) (g : Option Trigger) : SlotLayer T E S A :=
  { L with trigger := Function.update L.trigger a g }

def ehFree (L : SlotLayer T E S A) (a : A) : Option (SlotLayer T E S A) := do
  let _ ← L.trigger a
  pure { L.setTrigger a none with frees := Function.update L.frees a (L.frees a + 1) }

def triggerWeakRefNew (L : SlotLayer T E S A) (a : A) : SlotLayer T E S A :=
  { L.setTrigger a (some ⟨0, false⟩) with
    cbNodes := L.cbNodes.initHead (.cbHead a)
    news := Function.update L.news a (L.news a + 1) }

def triggerConnect (L : SlotLayer T E S A) (a : A) (s : S) : Option (SlotLayer T E S A) := do
  let g ← L.trigger a
  pure { L.setTrigger a (some { g with connectCnt := g.connectCnt + 1 }) with
    cbNodes := L.cbNodes.add s (.cbHead a) }

def triggerDisconnect (L : SlotLayer T E S A) (a : A) (s : S) :
    Option (BitVec 31 × SlotLayer T E S A) := do
  let g ← L.trigger a
  let ret := g.connectCnt - 1
  let L := { L.setTrigger a (some { g with connectCnt := ret }) with
    cbNodes := L.cbNodes.delInit s }
  if ret = 0 ∧ g.forcedRef = false then
    let L ← L.ehFree a
    pure (ret, L)
  else pure (ret, L)

def triggerForcedGetRef (L : SlotLayer T E S A) (a : A) : Option (SlotLayer T E S A) := do
  let g ← L.trigger a
  pure (L.setTrigger a (some { g with forcedRef := true }))

def triggerForcedReleaseRef (L : SlotLayer T E S A) (a : A) : Option (SlotLayer T E S A) := do
  let g ← L.trigger a
  let L := L.setTrigger a (some { g with forcedRef := false })
  if g.connectCnt = 0 then L.ehFree a else pure L

def triggerClean (L : SlotLayer T E S A) (a : A) : Option (SlotLayer T E S A) := do
  let g ← L.trigger a
  let L := { L.setTrigger a (some { g with connectCnt := 0 }) with
    cbNodes := L.cbNodes.delAll (.cbHead a) }
  if g.forcedRef = false then L.ehFree a else pure L

/-! The interface. -/

def ehEventCbConnect (L : SlotLayer T E S A) (e : E) (s : S) (t : T) (mem : Mallocs A) :
    Option (Int × SlotLayer T E S A) :=
  if (L.cbNodes.home s).isSome then pure (ehRetBusy, L)
  else if e = taskEvent t then pure (ehRetInvalidParam, L)
  else
    let (ret, L) := L.taskGetEpollTryNew taskEvent t mem
    if ret < 0 then pure (ret, L)
    else
      let (ret, L) := L.ehEpollAddEventAdvanced t e mem.receptor
      if ret ≠ ehRetOk ∧ ret ≠ ehRetExists then pure (ret, L)
      else if ret = ehRetExists then do
        let userdata ← L.receptor t e
        let trigger ← userdata
        let L ← L.triggerConnect trigger s
        pure (ehRetOk, { L with slotTask := Function.update L.slotTask s (some t) })
      else
        match mem.trigger with
        | none => pure (ehRetMallocError, L)
        | some trigger => do
          let L := (L.triggerWeakRefNew trigger).setReceptor t e (some (some trigger))
          let L ← L.triggerConnect trigger s
          pure (ehRetOk, { L with slotTask := Function.update L.slotTask s (some t) })

def ehEventCbDisconnect (L : SlotLayer T E S A) (e : E) (s : S) : Option (SlotLayer T E S A) :=
  match L.cbNodes.home s, L.slotTask s with
  | some _, some t =>
    if L.hasEpoll t = false then pure L
    else
      match L.receptor t e with
      | none => pure L
      | some none => none
      | some (some trigger) => do
        let (left, L) ← L.triggerDisconnect trigger s
        if left ≠ 0 then pure L else pure (L.ehEpollDelEvent t e)
  | _, _ => pure L

def ehEventCbCleanFromTask (L : SlotLayer T E S A) (e : E) (t : T) :
    Option (SlotLayer T E S A) :=
  if L.hasEpoll t = false then pure L
  else
    match L.receptor t e with
    | none | some none => pure L
    | some (some trigger) => do
      let L ← L.triggerClean trigger
      pure (L.ehEpollDelEvent t e)

/-! `eh_event_loop`. -/

/-- One pass of the first loop over a batch; the slot is stored with its `userdata`. -/
def beginSlot (t : T) (L : SlotLayer T E S A) (x : EpollSlot E A) :
    Option (SlotLayer T E S A) :=
  let store (L : SlotLayer T E S A) (x : EpollSlot E A) : SlotLayer T E S A :=
    L.setLoop t (some ((L.loop t).getD [] ++ [x]))
  match x.affair, x.userdata with
  | .error, some trigger => do
    let L ← L.triggerClean trigger
    pure (store (L.ehEpollDelEvent t x.event) { x with userdata := none })
  | .error, none => pure (store (L.ehEpollDelEvent t x.event) x)
  | .eventTrigger, none => pure (store L x)
  | .eventTrigger, some trigger => do
    let L ← L.triggerForcedGetRef trigger
    pure (store L x)

def enter (L : SlotLayer T E S A) (t : T) (slots : List (EpollSlot E A)) : SlotLayer T E S A :=
  { L.setLoop t (some slots) with
    cbNodes :=
      match slots.head?.bind EpollSlot.userdata with
      | some trigger => L.cbNodes.initHead (.usedTmpList trigger)
      | none => L.cbNodes }

/-- The events that `eh_epoll_wait` reports and the events after it. -/
def reports (L : SlotLayer T E S A) (t : T) : List (E × EpollAffair) × Events E T T :=
  L.events.ehEpollPendingReadOnLock t ehEventCbEpollSlotSize

/-- `eh_epoll_wait` and the first loop over what it returns. The task waits on where nothing is
reported. -/
def waitBatch (L : SlotLayer T E S A) (t : T) : Option (SlotLayer T E S A) :=
  let (affairs, events) := L.reports t
  let read := { L with events := events }
  if affairs = [] then pure read
  else do
    let slots := affairs.map fun x => ⟨x.1, (L.receptor t x.1).join, x.2⟩
    let L ← slots.foldlM (beginSlot t) (read.setLoop t (some []))
    pure (L.enter t ((L.loop t).getD []))

/-- A pass of the second loop up to the next call of a slot function, or to the end of the
dispatch of a trigger. -/
def nextSlot (L : SlotLayer T E S A) (t : T) : Option (SlotLayer T E S A) :=
  match L.loop t with
  | none => none
  | some [] => pure (L.setLoop t none)
  | some (x :: rest) =>
    match x.userdata with
    | none => pure (L.enter t rest)
    | some trigger => do
      let _ ← L.trigger trigger
      match L.cbNodes.list (.cbHead trigger) with
      | s :: _ => pure { L with cbNodes := L.cbNodes.moveTail s (.usedTmpList trigger) }
      | [] =>
        let L := { L with
          cbNodes := L.cbNodes.splice (.usedTmpList trigger) (.cbHead trigger) }
        let L ← L.triggerForcedReleaseRef trigger
        pure (L.enter t rest)

def step (L : SlotLayer T E S A) : SlotLabel T E S A → Option (SlotLayer T E S A)
  | .connect e s t mem => (L.ehEventCbConnect taskEvent e s t mem).map Prod.snd
  | .disconnect e s => L.ehEventCbDisconnect e s
  | .cleanFromTask e t => L.ehEventCbCleanFromTask e t
  | .notify e => some { L with events := L.events.ehEventNotify e }
  | .notifyAndReorder e num =>
    some { L with events := L.events.ehEventNotifyAndReorder e num }
  | .clean e => some { L with events := L.events.ehEventClean e }
  | .enterLoop t mem => some (L.taskGetEpollTryNew taskEvent t mem).2
  | .wait t => L.waitBatch t
  | .next t => L.nextSlot t

/-- The memory for a trigger is not in use, and a task is at one place of its loop. -/
def Enabled (L : SlotLayer T E S A) : SlotLabel T E S A → Prop
  | .connect _ _ _ mem => ∀ a, mem.trigger = some a → L.trigger a = none
  | .wait t => L.hasEpoll t = true ∧ L.loop t = none
  | .next t => L.loop t ≠ none
  | _ => True

end SlotLayer

end EventHub.EventCb
