import EventHub.RbTree.Insert
import EventHub.RbTree.Delete
import Mathlib.Logic.Function.Basic

/-! The timers of `eh_timer.c`. Times are 64-bit words that wrap; a function that reads
the clock takes the reading `now`. A timer is known by its address. -/

namespace EventHub.Timer
open RbTree

def retOk : Int := 0
def retInvalidParam : Int := -2
def retBusy : Int := -4
def firstTimerUpdate : Int := 1

def attrAutoCirculation : Nat := 1
def attrNowTimeBase : Nat := 2

/-- The width of `eh_clock_t`: its values are below `clockSpan`. -/
def clockSpan : Nat := 18446744073709551616

def ehDiffTime (a b : Nat) : Int := Int.bmod (a - b) clockSpan

/-- The conversion of an `eh_sclock_t` to `eh_clock_t`. -/
def toClock (x : Int) : Nat := (x % clockSpan).toNat

/-- `eh_msec_to_clock`, with the configured number of clocks in a second. -/
def ehMsecToClock (clocksPerSec msec : Nat) : Nat :=
  let clock := (msec / 1000 * clocksPerSec % clockSpan +
    msec % 1000 * clocksPerSec % clockSpan / 1000) % clockSpan
  if clock ≠ 0 then clock else if msec ≠ 0 then 1 else 0

def firstTimerMaxTime (clocksPerSec : Nat) : Int :=
  Int.bmod (ehMsecToClock clocksPerSec (1000 * 60)) clockSpan

/-- `running` is `!eh_rb_node_is_empty(&timer->rb_node)`. -/
structure EhEventTimer where
  expire : Nat
  interval : Int
  attrribute : Nat
  running : Bool
deriving DecidableEq

namespace EhEventTimer

def autoCirculation (timer : EhEventTimer) : Bool :=
  timer.attrribute &&& attrAutoCirculation ≠ 0

def nowTimeBase (timer : EhEventTimer) : Bool :=
  timer.attrribute &&& attrNowTimeBase ≠ 0

end EhEventTimer

/-- The global variables of `eh_timer.c`, and the timers. -/
structure Timers where
  timerTreeRoot : Root Nat
  timerNow : Nat
  timer : Nat → EhEventTimer

/-- Why a loop that is run for a bounded number of iterations gives no result. -/
inductive Stop
  | nullPointer
  | outOfFuel
deriving DecidableEq

namespace Timers

def setTimer (s : Timers) (x : Nat) (timer : EhEventTimer) : Timers :=
  { s with timer := Function.update s.timer x timer }

/-- `eh_remaining_time(timer_now, timer)`. -/
def remaining (s : Timers) (x : Nat) : Int := ehDiffTime (s.timer x).expire s.timerNow

def ehTimerRbtreeCmp (s : Timers) (a b : Nat) : Int :=
  if s.remaining a < s.remaining b then -1 else if s.remaining a > s.remaining b then 1 else 0

/-- `_eh_timer_start_no_lock`; `none` where the tree follows `NULL`. -/
def startNoLock (s : Timers) (base x : Nat) : Option (Timers × Int) :=
  if (s.timer x).running then some (s, retBusy)
  else
    let timer := s.timer x
    let s := s.setTimer x { timer with expire := (base + toClock timer.interval) % clockSpan }
    (s.timerTreeRoot.ehRbAdd (fun y => s.ehTimerRbtreeCmp x y < 0) x).map fun (root, first) =>
      ({ s with timerTreeRoot := root }.setTimer x { s.timer x with running := true },
        if first then firstTimerUpdate else retOk)

/-- `eh_rb_del` and `eh_rb_node_init` of the timer's node. -/
def delNode (s : Timers) (x : Nat) : Option Timers :=
  (s.timerTreeRoot.ehRbDel x).map fun (root, _) =>
    { s with timerTreeRoot := root }.setTimer x { s.timer x with running := false }

/-- `eh_timer_get_first_remaining_time_on_lock`; `none` where it follows `NULL`. -/
def ehTimerGetFirstRemainingTime (clocksPerSec : Nat) (s : Timers) (now : Nat) :
    Option (Timers × Int) :=
  let s := { s with timerNow := now }
  if s.timerTreeRoot.isEmpty then some (s, firstTimerMaxTime clocksPerSec)
  else s.timerTreeRoot.leftmost.map fun first =>
    (s, if s.remaining first < 0 then 0
      else if s.remaining first > firstTimerMaxTime clocksPerSec
        then firstTimerMaxTime clocksPerSec
      else s.remaining first)

/-- The condition of the loop in `eh_timer_check`: the first timer, where it is due. -/
def dueFirst (s : Timers) : Option Nat :=
  s.timerTreeRoot.leftmost.filter (s.remaining · ≤ 0)

def base (s : Timers) (x : Nat) : Nat :=
  let timer := s.timer x
  if timer.nowTimeBase then s.timerNow
  else if ehDiffTime ((timer.expire + toClock timer.interval) % clockSpan) s.timerNow > 0
    then timer.expire
  else s.timerNow

def checkBody (s : Timers) (x : Nat) : Option Timers :=
  (s.delNode x).bind fun s =>
    if (s.timer x).autoCirculation then (s.startNoLock (s.base x) x).map Prod.fst else some s

/-- At most `fuel` iterations of the loop; the result has the timers notified, in order. -/
def drain : Nat → Timers → Except Stop (Timers × List Nat)
  | fuel, s =>
    match s.dueFirst with
    | none => .ok (s, [])
    | some x =>
      match fuel with
      | 0 => .error .outOfFuel
      | fuel + 1 =>
        match s.checkBody x with
        | none => .error .nullPointer
        | some s => (drain fuel s).map fun (s, notified) => (s, x :: notified)

def ehTimerCheck (fuel : Nat) (s : Timers) (now : Nat) : Except Stop (Timers × List Nat) :=
  let s := { s with timerNow := now }
  if s.timerTreeRoot.isEmpty then .ok (s, []) else drain fuel s

def ehTimerStart (s : Timers) (x now : Nat) : Option (Timers × Int) :=
  if 0 ≤ (s.timer x).interval then { s with timerNow := now }.startNoLock now x
  else some (s, retInvalidParam)

def ehTimerStop (s : Timers) (x : Nat) : Option (Timers × Int) :=
  if (s.timer x).running then (s.delNode x).map (·, retOk) else some (s, retOk)

def ehTimerRestart (s : Timers) (x now : Nat) : Option (Timers × Int) :=
  if 0 ≤ (s.timer x).interval then
    let s := { s with timerNow := now }
    if (s.timer x).running then (s.delNode x).bind (·.startNoLock now x)
    else s.startNoLock now x
  else some (s, retInvalidParam)

def ehTimerConfigInterval (s : Timers) (x : Nat) (interval : Int) : Timers :=
  s.setTimer x { s.timer x with interval }

def ehTimerSetAttr (s : Timers) (x attr : Nat) : Timers :=
  s.setTimer x { s.timer x with attrribute := attr }

end Timers

end EventHub.Timer
