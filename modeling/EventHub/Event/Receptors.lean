import Mathlib.Logic.Function.Basic
import Mathlib.Data.List.Nodup

/-! Events and the receptors linked to them. A receptor belongs to a task that waits, to the
timer of a wait, or to an epoll object. What an operation does to the scheduler is the
wake-up of the tasks named by `wakeup`, in the order of the list. -/

namespace EventHub.Event

/-- `receptor` and `receptor_timer` of the wait a task is in, and the receptor of an epoll
for an event. -/
inductive Receptor (E T P : Type) where
  | wait (t : T)
  | timer (t : T)
  | epoll (p : P) (e : E)
deriving DecidableEq

structure Flags where
  trigger : Bool
  error : Bool
deriving DecidableEq

/-- `flags & EH_EVENT_RECEPTOR_TRIGGER_MASK`. -/
def Flags.any (f : Flags) : Bool := f.trigger || f.error

def Flags.clear : Flags := ⟨false, false⟩

structure EhEpoll (E T : Type) where
  /-- The events of the receptors on `pending_list_head`. -/
  pending : List E
  wakeupTask : Option T

structure Events (E T P : Type) where
  receptors : E → List (Receptor E T P)
  flags : Receptor E T P → Flags
  epoll : P → EhEpoll E T

inductive EpollAffair where
  | eventTrigger
  | error
deriving DecidableEq

/-- The `affair` that is reported for the flags of a receptor. -/
def Flags.affair (f : Flags) : EpollAffair :=
  if f.error then .error else if f.trigger then .eventTrigger else .error

/-- `eh_list_add_tail`, unless the node is linked. -/
def pend {E : Type} [DecidableEq E] (l : List E) (e : E) : List E :=
  if e ∈ l then l else l ++ [e]

def epollEvents {E T P : Type} [DecidableEq P] (p : P) (rs : List (Receptor E T P)) : List E :=
  rs.filterMap fun
    | .epoll q e => if q = p then some e else none
    | _ => none

theorem epollEvents_cons {E T P : Type} [DecidableEq P] (p : P) (r : Receptor E T P)
    (rs : List (Receptor E T P)) :
    epollEvents p (r :: rs) = epollEvents p [r] ++ epollEvents p rs := by
  rw [← List.singleton_append, epollEvents, List.filterMap_append]
  rfl

namespace Events
variable {E T P : Type} [DecidableEq E] [DecidableEq P]

def addReceptor (ev : Events E T P) (e : E) (r : Receptor E T P) : Events E T P :=
  { ev with receptors := Function.update ev.receptors e (ev.receptors e ++ [r]) }

def setEpoll (ev : Events E T P) (p : P) (ep : EhEpoll E T) : Events E T P :=
  { ev with epoll := Function.update ev.epoll p ep }

/-- `_eh_event_trigger_receptor_no_lock`, up to the wake-up. -/
def triggerReceptor (ev : Events E T P) : Receptor E T P → Events E T P
  | .epoll p e => ev.setEpoll p { ev.epoll p with pending := pend (ev.epoll p).pending e }
  | _ => ev

/-- The task that `_eh_event_trigger_receptor_no_lock` wakes up. -/
def wakeup (ev : Events E T P) : Receptor E T P → Option T
  | .wait t | .timer t => some t
  | .epoll p _ => (ev.epoll p).wakeupTask

def wakeups (ev : Events E T P) (rs : List (Receptor E T P)) : List T :=
  rs.filterMap ev.wakeup

/-! What one receptor that is reached changes. -/

@[simp] theorem triggerReceptor_receptors (ev : Events E T P) (r : Receptor E T P) :
    (ev.triggerReceptor r).receptors = ev.receptors := by
  cases r <;> rfl

@[simp] theorem triggerReceptor_flags (ev : Events E T P) (r : Receptor E T P) :
    (ev.triggerReceptor r).flags = ev.flags := by
  cases r <;> rfl

@[simp] theorem triggerReceptor_wakeupTask (ev : Events E T P) (r : Receptor E T P) (p : P) :
    ((ev.triggerReceptor r).epoll p).wakeupTask = (ev.epoll p).wakeupTask := by
  cases r with
  | wait t => rfl
  | timer t => rfl
  | epoll q e =>
    by_cases eq : p = q
    · subst eq
      simp [triggerReceptor, setEpoll]
    · simp [triggerReceptor, setEpoll, eq]

theorem triggerReceptor_pending (ev : Events E T P) (r : Receptor E T P) (p : P) :
    ((ev.triggerReceptor r).epoll p).pending =
      (epollEvents p [r]).foldl pend (ev.epoll p).pending := by
  cases r with
  | wait t => rfl
  | timer t => rfl
  | epoll q e =>
    by_cases eq : p = q
    · subst eq
      simp [triggerReceptor, setEpoll, epollEvents]
    · simp [triggerReceptor, setEpoll, epollEvents, eq, Ne.symm eq]

variable [DecidableEq T]

def setFlags (ev : Events E T P) (r : Receptor E T P) (f : Flags) : Events E T P :=
  { ev with flags := Function.update ev.flags r f }

def removeReceptor (ev : Events E T P) (e : E) (r : Receptor E T P) : Events E T P :=
  { ev with receptors := Function.update ev.receptors e ((ev.receptors e).erase r) }

def notifyReceptor (ev : Events E T P) (r : Receptor E T P) : Events E T P :=
  (ev.setFlags r { ev.flags r with trigger := true }).triggerReceptor r

def ehEventNotify (ev : Events E T P) (e : E) : Events E T P :=
  (ev.receptors e).foldl notifyReceptor ev

/-- The receptors that `eh_event_notify_and_reorder` reaches, those before its `break`. -/
def reordered (ev : Events E T P) (e : E) (num : Int) : List (Receptor E T P) :=
  (ev.receptors e).take num.toNat

/-- The list head moves behind the last receptor reached. -/
def ehEventNotifyAndReorder (ev : Events E T P) (e : E) (num : Int) : Events E T P :=
  let notified := (ev.reordered e num).foldl notifyReceptor ev
  { notified with
    receptors := Function.update ev.receptors e
      ((ev.receptors e).drop num.toNat ++ ev.reordered e num) }

def cleanReceptor (e : E) (ev : Events E T P) (r : Receptor E T P) : Events E T P :=
  ((ev.setFlags r { ev.flags r with error := true }).triggerReceptor r).removeReceptor e r

def ehEventClean (ev : Events E T P) (e : E) : Events E T P :=
  (ev.receptors e).foldl (cleanReceptor e) ev

/-- The loop of `_eh_epoll_pending_read_on_lock` over the nodes that are left, with room for
so many slots. -/
def readPending (p : P) : Events E T P → List E → Nat → List (E × EpollAffair) × Events E T P
  | ev, [], _ => ([], ev)
  | ev, e :: rest, room =>
    let f := ev.flags (.epoll p e)
    let unlinked := ev.setEpoll p { ev.epoll p with pending := rest }
    if f.any = false then ([], unlinked)
    else
      let reported := unlinked.setFlags (.epoll p e) .clear
      if room ≤ 1 then ([(e, f.affair)], reported)
      else
        let later := readPending p reported rest (room - 1)
        ((e, f.affair) :: later.1, later.2)

def ehEpollPendingReadOnLock (ev : Events E T P) (p : P) (slotSize : Nat) :
    List (E × EpollAffair) × Events E T P :=
  readPending p ev (ev.epoll p).pending slotSize

/-! The receptors reached by a notification. -/

theorem foldl_notify_receptors (rs : List (Receptor E T P)) (ev : Events E T P) :
    (rs.foldl notifyReceptor ev).receptors = ev.receptors := by
  induction rs generalizing ev with
  | nil => rfl
  | cons r rs ih =>
    rw [List.foldl_cons, ih, notifyReceptor, triggerReceptor_receptors]
    rfl

theorem foldl_notify_flags (rs : List (Receptor E T P)) (ev : Events E T P)
    (x : Receptor E T P) :
    (rs.foldl notifyReceptor ev).flags x =
      if x ∈ rs then { ev.flags x with trigger := true } else ev.flags x := by
  induction rs generalizing ev with
  | nil => simp
  | cons r rs ih =>
    rw [List.foldl_cons, ih, notifyReceptor, triggerReceptor_flags]
    by_cases eq : x = r
    · subst eq
      simp [setFlags]
    · simp [setFlags, eq]

theorem foldl_notify_wakeupTask (rs : List (Receptor E T P)) (ev : Events E T P) (p : P) :
    ((rs.foldl notifyReceptor ev).epoll p).wakeupTask = (ev.epoll p).wakeupTask := by
  induction rs generalizing ev with
  | nil => rfl
  | cons r rs ih =>
    rw [List.foldl_cons, ih, notifyReceptor, triggerReceptor_wakeupTask]
    rfl

theorem foldl_notify_pending (rs : List (Receptor E T P)) (ev : Events E T P) (p : P) :
    ((rs.foldl notifyReceptor ev).epoll p).pending =
      (epollEvents p rs).foldl pend (ev.epoll p).pending := by
  induction rs generalizing ev with
  | nil => rfl
  | cons r rs ih =>
    rw [List.foldl_cons, ih, notifyReceptor, triggerReceptor_pending, epollEvents_cons p r rs,
      List.foldl_append]
    rfl

/-! The receptors reached by a clean. -/

theorem foldl_clean_flags (e : E) (rs : List (Receptor E T P)) (ev : Events E T P)
    (x : Receptor E T P) :
    (rs.foldl (cleanReceptor e) ev).flags x =
      if x ∈ rs then { ev.flags x with error := true } else ev.flags x := by
  induction rs generalizing ev with
  | nil => simp
  | cons r rs ih =>
    rw [List.foldl_cons, ih]
    have one : (cleanReceptor e ev r).flags =
        Function.update ev.flags r { ev.flags r with error := true } := by
      simp [cleanReceptor, removeReceptor, setFlags]
    rw [one]
    by_cases eq : x = r
    · subst eq
      simp
    · simp [eq]

theorem foldl_clean_receptors (e : E) (rs : List (Receptor E T P)) (ev : Events E T P) :
    (rs.foldl (cleanReceptor e) ev).receptors =
      Function.update ev.receptors e ((ev.receptors e).diff rs) := by
  induction rs generalizing ev with
  | nil => simp
  | cons r rs ih =>
    rw [List.foldl_cons, ih]
    simp [cleanReceptor, removeReceptor, setFlags]

theorem foldl_clean_wakeupTask (e : E) (rs : List (Receptor E T P)) (ev : Events E T P)
    (p : P) :
    ((rs.foldl (cleanReceptor e) ev).epoll p).wakeupTask = (ev.epoll p).wakeupTask := by
  induction rs generalizing ev with
  | nil => rfl
  | cons r rs ih =>
    rw [List.foldl_cons, ih, cleanReceptor]
    exact triggerReceptor_wakeupTask _ r p

theorem foldl_clean_pending (e : E) (rs : List (Receptor E T P)) (ev : Events E T P) (p : P) :
    ((rs.foldl (cleanReceptor e) ev).epoll p).pending =
      (epollEvents p rs).foldl pend (ev.epoll p).pending := by
  induction rs generalizing ev with
  | nil => rfl
  | cons r rs ih =>
    rw [List.foldl_cons, ih, epollEvents_cons p r rs, List.foldl_append]
    have one : ((cleanReceptor e ev r).epoll p).pending =
        (epollEvents p [r]).foldl pend (ev.epoll p).pending :=
      triggerReceptor_pending _ r p
    rw [one]

/-! The three operations. -/

@[simp] theorem ehEventNotify_receptors (ev : Events E T P) (e : E) :
    (ev.ehEventNotify e).receptors = ev.receptors :=
  foldl_notify_receptors _ _

theorem ehEventNotifyAndReorder_receptors (ev : Events E T P) (e : E) (num : Int) :
    (ev.ehEventNotifyAndReorder e num).receptors =
      Function.update ev.receptors e
        ((ev.receptors e).drop num.toNat ++ (ev.receptors e).take num.toNat) := rfl

theorem ehEventNotifyAndReorder_perm (ev : Events E T P) (e x : E) (num : Int) :
    ((ev.ehEventNotifyAndReorder e num).receptors x).Perm (ev.receptors x) := by
  rw [ehEventNotifyAndReorder_receptors]
  by_cases eq : x = e
  · subst eq
    rw [Function.update_self]
    exact List.perm_append_comm.trans (List.take_append_drop _ _ ▸ .refl _)
  · rw [Function.update_of_ne eq]

theorem ehEventClean_receptors (ev : Events E T P) (e : E) :
    (ev.ehEventClean e).receptors = Function.update ev.receptors e [] := by
  have none : ∀ l : List (Receptor E T P), l.diff l = [] := by
    intro l
    induction l with
    | nil => rfl
    | cons r l ih => simpa using ih
  rw [ehEventClean, foldl_clean_receptors, none]

end Events

end EventHub.Event
