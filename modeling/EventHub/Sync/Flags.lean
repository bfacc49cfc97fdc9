import EventHub.Sync.Handover

/-! Event flags. The condition of a wait changes the flags when it is met, and the calls that
change them notify. -/

namespace EventHub.Sync
open Library Event Kernel

inductive FlagsConditionType where
  | waitClean
  | waitSet
deriving DecidableEq

/-- `struct event_flags_condition_arg`. The flags to clear or to set are a union there, and
`reality_flags` may be null. -/
structure FlagsConditionArg (O : Type) (w : Nat) where
  ef : O
  waitFlags : BitVec w
  changeFlags : BitVec w
  realityFlags : Bool
  type : FlagsConditionType
deriving DecidableEq

inductive FlagsOp where
  | setBits
  | clearBits
deriving DecidableEq

def FlagsOp.newFlags {w : Nat} (op : FlagsOp) (old flags : BitVec w) : BitVec w :=
  match op with
  | setBits => old ||| flags
  | clearBits => old &&& ~~~flags

/-- The calls that change flags: the load, the compare-exchange with the value that is expected,
the exchange of an update, and the notification. -/
inductive FlagsCall (O : Type) (w : Nat) where
  | load (op : FlagsOp) (o : O) (flags : BitVec w)
  | exchange (op : FlagsOp) (o : O) (flags old : BitVec w)
  | update (o : O) (flags : BitVec w)
  | notify (o : O)
deriving DecidableEq

namespace FlagsCall
variable {O : Type} {w : Nat}

def ehEventFlagsSetBitsChangeNotify (o : O) (flags : BitVec w) : FlagsCall O w :=
  .load .setBits o flags

def ehEventFlagsClearBitsChangeNotify (o : O) (flags : BitVec w) : FlagsCall O w :=
  .load .clearBits o flags

def ehEventFlagsUpdateChangeNotify (o : O) (flags : BitVec w) : FlagsCall O w :=
  .update o flags

def starts : FlagsCall O w → Bool
  | .load _ _ _ | .update _ _ => true
  | .exchange _ _ _ _ | .notify _ => false

end FlagsCall

/-- The flags of a program, what the waits of each task have stored through `reality_flags`, and
what the calls that change flags have returned. -/
structure EventFlags (T O : Type) (w : Nat) where
  flags : O → BitVec w
  reality : T → BitVec w
  returned : O → List Int
  -- History: how often each bit has been raised, counting from zero; which time it was that the
  -- last successful condition of a task has read; and which ones successful waits have returned.
  raised : O → Nat → Nat
  taken : T → Nat → Option Nat
  reported : O → Nat → List Nat

variable {T O P : Type} {w : Nat}

namespace EventFlags

def create : EventFlags T O w :=
  ⟨fun _ => 0, fun _ => 0, fun _ => [], fun _ _ => 0, fun _ _ => none, fun _ _ => []⟩

variable [DecidableEq O]

def store (x : EventFlags T O w) (o : O) (flags : BitVec w) : EventFlags T O w :=
  { x with
    flags := Function.update x.flags o flags
    raised := Function.update x.raised o fun b =>
      if flags.getLsbD b && !(x.flags o).getLsbD b then x.raised o b + 1 else x.raised o b }

def returns (x : EventFlags T O w) (o : O) (ret : Int) : EventFlags T O w :=
  { x with returned := Function.update x.returned o (x.returned o ++ [ret]) }

variable [DecidableEq T]

/-- `*reality_flags = flags & wait_flags`. -/
def read (x : EventFlags T O w) (c : FlagsConditionArg O w) (t : T) : EventFlags T O w :=
  let real := x.flags c.ef &&& c.waitFlags
  { x with
    reality := if c.realityFlags then Function.update x.reality t real else x.reality
    taken := Function.update x.taken t fun b =>
      if real.getLsbD b then some (x.raised c.ef b - 1) else none }

end EventFlags

namespace FlagsConditionArg

def met (c : FlagsConditionArg O w) (flags : BitVec w) : Bool :=
  match c.type with
  | .waitSet => !(flags &&& c.waitFlags == 0)
  | .waitClean => flags &&& c.waitFlags == 0

def change (c : FlagsConditionArg O w) (flags : BitVec w) : BitVec w :=
  match c.type with
  | .waitSet => flags &&& ~~~c.changeFlags
  | .waitClean => flags ||| c.changeFlags

variable [DecidableEq O] [DecidableEq T]

def conditionEventFlags (c : FlagsConditionArg O w) (t : T) (x : EventFlags T O w) :
    Bool × EventFlags T O w :=
  match c.type with
  | .waitSet =>
    if x.flags c.ef &&& c.waitFlags ≠ 0 then
      (true, (x.read c t).store c.ef (x.flags c.ef &&& ~~~c.changeFlags))
    else (false, x)
  | .waitClean =>
    if x.flags c.ef &&& c.waitFlags = 0 then
      (true, (x.read c t).store c.ef (x.flags c.ef ||| c.changeFlags))
    else (false, x)

theorem conditionEventFlags_eq (c : FlagsConditionArg O w) (t : T) (x : EventFlags T O w) :
    c.conditionEventFlags t x =
      if c.met (x.flags c.ef) then (true, (x.read c t).store c.ef (c.change (x.flags c.ef)))
      else (false, x) := by
  rw [conditionEventFlags, met, change]
  cases c.type <;> simp

def finish (c : FlagsConditionArg O w) (t : T) (ret : Int) (x : EventFlags T O w) :
    EventFlags T O w :=
  if ret < 0 then x
  else { x with
    reported := Function.update x.reported c.ef fun b =>
      x.reported c.ef b ++ (x.taken t b).toList }

end FlagsConditionArg

def ehEventFlagsWaitBitsSet (ef : O) (waitFlags claenFlags : BitVec w) (realityFlags : Bool) :
    FlagsConditionArg O w :=
  ⟨ef, waitFlags, claenFlags, realityFlags, .waitSet⟩

def ehEventFlagsWaitBitsClean (ef : O) (waitFlags setFlags : BitVec w) (realityFlags : Bool) :
    FlagsConditionArg O w :=
  ⟨ef, waitFlags, setFlags, realityFlags, .waitClean⟩

namespace EventFlags
variable [DecidableEq O]

/-- One pass of the loop up to the compare-exchange, `old_flags` being the flags. A weak
compare-exchange that fails without reason leads here too, and back to the same exchange. -/
def attempt (x : EventFlags T O w) (op : FlagsOp) (o : O) (flags : BitVec w) :
    Act O (EventFlags T O w) (FlagsCall O w) :=
  if op.newFlags (x.flags o) flags = x.flags o then ⟨x.returns o ehRetExists, none, none⟩
  else ⟨x, none, some (.exchange op o flags (x.flags o))⟩

def act (x : EventFlags T O w) : FlagsCall O w → Act O (EventFlags T O w) (FlagsCall O w)
  | .load op o flags => x.attempt op o flags
  | .exchange op o flags old =>
    if x.flags o = old then ⟨x.store o (op.newFlags old flags), none, some (.notify o)⟩
    else x.attempt op o flags
  | .update o flags =>
    let stored := x.store o flags
    if x.flags o ≠ flags then ⟨stored, none, some (.notify o)⟩
    else ⟨stored.returns o ehRetOk, none, none⟩
  | .notify o => ⟨x.returns o ehRetOk, some (.notify o), none⟩

end EventFlags

variable [DecidableEq T] [DecidableEq O]

def flagsSystem (T O : Type) [DecidableEq T] [DecidableEq O] (w dispatchCntPerPoll : Nat) :
    System T O (EventFlags T O w) (FlagsConditionArg O w) (FlagsCall O w) where
  dispatchCntPerPoll := dispatchCntPerPoll
  event c := c.ef
  condition c := some c.conditionEventFlags
  finish c := c.finish
  act a _ x := x.act a
  fromTask a := a.starts
  fromInterrupt a := a.starts

theorem flagsSystem_tested {n : Nat} {c : FlagsConditionArg O w} {t : T}
    {x x' : EventFlags T O w} {met : Bool} :
    (flagsSystem T O w n).Tested c t x met x' ↔ c.conditionEventFlags t x = (met, x') := by
  simp [System.Tested, flagsSystem]

section Tested
variable {c : FlagsConditionArg O w} {t : T} {x x' : EventFlags T O w}

theorem conditionEventFlags_false (h : c.conditionEventFlags t x = (false, x')) :
    c.met (x.flags c.ef) = false ∧ x' = x := by
  rw [c.conditionEventFlags_eq] at h
  split at h
  · cases h
  · next unmet =>
    cases h
    exact ⟨by simpa using unmet, rfl⟩

theorem conditionEventFlags_true (h : c.conditionEventFlags t x = (true, x')) :
    c.met (x.flags c.ef) = true ∧
      x' = (x.read c t).store c.ef (c.change (x.flags c.ef)) := by
  rw [c.conditionEventFlags_eq] at h
  split at h
  · next met =>
    cases h
    exact ⟨met, rfl⟩
  · cases h

end Tested

end EventHub.Sync
