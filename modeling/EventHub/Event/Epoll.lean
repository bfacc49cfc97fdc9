import EventHub.Kernel.Machine
import EventHub.RbTree.Delete
import EventHub.RbTree.Insert
import Mathlib.Order.Defs.LinearOrder

/-! An epoll object: the tree of its receptors, its list of pending ones and the task that waits
for it. The step relation interleaves its functions with the signals of any events and with the
other receptors that come and go. -/

namespace EventHub.Event
open Library RbTree Kernel

variable {E T P D : Type}

structure EpollSlot (E D : Type) where
  event : E
  userdata : Option D
  affair : EpollAffair
deriving DecidableEq

/-- The call of `eh_epoll_wait` that the task is in, with the flags of its `receptor_timer`. -/
structure EpollWait where
  slotSize : Nat
  timeout : Int
  timer : Flags
deriving DecidableEq

/-- The epoll is `p` among those of `events`. A node of the tree is the receptor for its event. -/
structure Epoll (E T P D : Type) where
  events : Events E T P
  allReceptorTree : Root E
  userdata : E → Option D
  waiting : Option EpollWait
  /-- The values and the slots that the waits have returned. -/
  returned : List (Int × List (EpollSlot E D))

inductive EpollLabel (E T P D : Type) where
  | add (e : E) (userdata : Option D) (memory : Bool)
  | del (e : E)
  | notify (e : E)
  | notifyAndReorder (e : E) (num : Int)
  | clean (e : E)
  | wait (slotSize : Nat) (timeout : Int)
  | pass
  | expire
  | link (e : E) (r : Receptor E T P)
  | unlink (e : E) (r : Receptor E T P)

def Receptor.isOf [DecidableEq P] (p : P) : Receptor E T P → Bool
  | .epoll q _ => q = p
  | .wait _ | .timer _ => false

def epollRbtreeMatch [LinearOrder E] (key e : E) : Ordering :=
  if key < e then .lt else if e < key then .gt else .eq

namespace Epoll
variable [LinearOrder E] [DecidableEq T] [DecidableEq P] (p : P)

def init : Epoll E T P D :=
  ⟨⟨fun _ => [], fun _ => .clear, fun _ => ⟨[], none⟩⟩, .init, fun _ => none, none, []⟩

/-- `eh_epoll_add_event`; `memory` says whether the allocation succeeds. The callback of
`eh_rb_find_new_add` runs where no node matches. -/
def ehEpollAddEvent (s : Epoll E T P D) (e : E) (userdata : Option D) (memory : Bool) :
    Option (Int × Epoll E T P D) := do
  let found := s.allReceptorTree.ehRbMatchFind (epollRbtreeMatch e)
  let (tree, node) ← s.allReceptorTree.ehRbFindNewAdd (epollRbtreeMatch e)
    (if memory then some e else none)
  let s := { s with allReceptorTree := tree }
  match found, node with
  | some _, _ => pure (ehRetExists, s)
  | none, none => pure (ehRetMallocError, s)
  | none, some e =>
    pure (ehRetOk, { s with
      events := (s.events.setFlags (.epoll p e) .clear).addReceptor e (.epoll p e)
      userdata := Function.update s.userdata e userdata })

def ehEpollDelEvent (s : Epoll E T P D) (e : E) : Option (Int × Epoll E T P D) :=
  match s.allReceptorTree.ehRbMatchFind (epollRbtreeMatch e) with
  | none => some (ehRetNotExists, s)
  | some e => do
    let (tree, _) ← s.allReceptorTree.ehRbDel e
    pure (ehRetOk, { s with
      events := (s.events.removeReceptor e (.epoll p e)).setEpoll p
        { s.events.epoll p with pending := (s.events.epoll p).pending.erase e }
      allReceptorTree := tree })

/-- `_eh_epoll_pending_read_on_lock` with the slots that it fills. -/
def read (s : Epoll E T P D) (slotSize : Nat) : List (EpollSlot E D) × Epoll E T P D :=
  let done := s.events.ehEpollPendingReadOnLock p slotSize
  (done.1.map fun x => ⟨x.1, s.userdata x.1, x.2⟩, { s with events := done.2 })

/-- One pass of the loop of `_eh_epoll_wait` or `_eh_epoll_wait_timeout`. -/
def pass (s : Epoll E T P D) (w : EpollWait) : Epoll E T P D :=
  let (slots, s) := s.read p w.slotSize
  if slots.length ≠ 0 then
    { s with waiting := none, returned := s.returned ++ [((slots.length : Int), slots)] }
  else if w.timer.any then
    { s with
      waiting := none
      returned := s.returned ++ [(if w.timer.trigger then ehRetTimeout else ehRetEventError, [])] }
  else s

/-- The entry of `eh_epoll_wait`. -/
def ehEpollWait (s : Epoll E T P D) (slotSize : Nat) (timeout : Int) : Epoll E T P D :=
  if timeout = ehTimeForever ∨ 0 < timeout then
    { s with waiting := some ⟨slotSize, timeout, .clear⟩ }
  else
    let (slots, s) := s.read p slotSize
    { s with returned := s.returned ++
      [(if slots.length = 0 then ehRetTimeout else (slots.length : Int), slots)] }

def step (s : Epoll E T P D) : EpollLabel E T P D → Option (Epoll E T P D)
  | .add e userdata memory => (s.ehEpollAddEvent p e userdata memory).map Prod.snd
  | .del e => (s.ehEpollDelEvent p e).map Prod.snd
  | .notify e => some { s with events := s.events.ehEventNotify e }
  | .notifyAndReorder e num => some { s with events := s.events.ehEventNotifyAndReorder e num }
  | .clean e => some { s with events := s.events.ehEventClean e }
  | .wait slotSize timeout =>
    if s.waiting = none ∧ 0 < slotSize then some (s.ehEpollWait p slotSize timeout) else none
  | .pass => s.waiting.map (s.pass p)
  | .expire =>
    match s.waiting with
    | some w =>
      if 0 < w.timeout then
        some { s with waiting := some { w with timer := { w.timer with trigger := true } } }
      else none
    | none => none
  | .link e r => if r.isOf p then none else some { s with events := s.events.addReceptor e r }
  | .unlink e r =>
    if r.isOf p then none else some { s with events := s.events.removeReceptor e r }

end Epoll

end EventHub.Event
