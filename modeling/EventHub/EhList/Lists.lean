import EventHub.Library.Splices

/-! The lists of `eh_list.h`. A node is known by its address; 0 is `NULL`. -/

namespace EventHub.EhList
open Library

/-- A `struct eh_list_head` at each address. -/
abbrev Memory := Links Nat

def ehListHeadInit (m : Memory) (ptr : Nat) : Memory := m.alone ptr

/-- `__eh_list_add`. -/
def ehListAddBetween (m : Memory) (new prev next : Nat) : Memory := m.insert new prev next

def ehListAdd (m : Memory) (new head : Nat) : Memory :=
  ehListAddBetween m new head (m.next head)

def ehListAddTail (m : Memory) (new head : Nat) : Memory :=
  ehListAddBetween m new (m.prev head) head

/-- `__eh_list_del`. -/
def ehListDelBetween (m : Memory) (prev next : Nat) : Memory := m.join prev next

def ehListDel (m : Memory) (entry : Nat) : Memory :=
  ((ehListDelBetween m (m.prev entry) (m.next entry)).setNext entry 0).setPrev entry 0

def ehListDelInit (m : Memory) (entry : Nat) : Memory :=
  ehListHeadInit (ehListDelBetween m (m.prev entry) (m.next entry)) entry

def ehListMove (m : Memory) (node head : Nat) : Memory :=
  ehListAdd (ehListDelBetween m (m.prev node) (m.next node)) node head

def ehListMoveTail (m : Memory) (node head : Nat) : Memory :=
  ehListAddTail (ehListDelBetween m (m.prev node) (m.next node)) node head

def ehListEmpty (m : Memory) (head : Nat) : Bool := m.next head = head

/-- `__eh_list_splice`. -/
def ehListSpliceBehind (m : Memory) (list head : Nat) : Memory := m.splice list head

def ehListSplice (m : Memory) (list head : Nat) : Memory :=
  if ehListEmpty m list then m else ehListSpliceBehind m list head

def ehListSpliceInit (m : Memory) (list head : Nat) : Memory :=
  if ehListEmpty m list then m
  else ehListHeadInit (ehListSpliceBehind m list head) list

inductive Edit where
  | headInit (ptr : Nat)
  | add (new head : Nat)
  | addTail (new head : Nat)
  | del (entry : Nat)
  | delInit (entry : Nat)
  | move (node head : Nat)
  | moveTail (node head : Nat)
  | splice (list head : Nat)
  | spliceInit (list head : Nat)
deriving DecidableEq

def edit (m : Memory) : Edit → Memory
  | .headInit ptr => ehListHeadInit m ptr
  | .add new head => ehListAdd m new head
  | .addTail new head => ehListAddTail m new head
  | .del entry => ehListDel m entry
  | .delInit entry => ehListDelInit m entry
  | .move node head => ehListMove m node head
  | .moveTail node head => ehListMoveTail m node head
  | .splice list head => ehListSplice m list head
  | .spliceInit list head => ehListSpliceInit m list head

/-- The loops of `eh_list_for_each` read `next`, those of `eh_list_for_each_prev` read `prev`. -/
inductive Dir where
  | next
  | prev
deriving DecidableEq

def follow (m : Memory) (pos : Nat) : Dir → Nat
  | .next => m.next pos
  | .prev => m.prev pos

section Loops
variable (d : Dir) (head : Nat)

/-- The rounds of `eh_list_for_each` from `pos` on. -/
def forEachFrom (m : Memory) : Nat → Nat → Option (List Nat)
  | 0, _ => none
  | fuel + 1, pos =>
    if pos = head then some [] else (forEachFrom m fuel (follow m pos d)).map (pos :: ·)

/-- `eh_list_for_each`, `eh_list_for_each_entry` and their `prev` versions. -/
def ehListForEach (m : Memory) (fuel : Nat) : Option (List Nat) :=
  forEachFrom d head m fuel (follow m head d)

/-- `eh_list_for_each_entry_continue`. -/
def ehListForEachContinue (m : Memory) (fuel pos : Nat) : Option (List Nat) :=
  forEachFrom d head m fuel (follow m pos d)

/-- The rounds of `eh_list_for_each_safe`, one for each body, with `n` read before the body;
the loop breaks where there is no body. -/
def forEachSafeFrom (m : Memory) (pos n : Nat) : List (List Edit) → Memory × List Nat
  | [] => (m, [])
  | body :: bodies =>
    if pos = head then (m, []) else
      let m := body.foldl edit m
      let done := forEachSafeFrom m n (follow m n d) bodies
      (done.1, pos :: done.2)

/-- `eh_list_for_each_safe`, `eh_list_for_each_entry_safe` and their `prev` versions. -/
def ehListForEachSafe (m : Memory) (bodies : List (List Edit)) : Memory × List Nat :=
  let pos := follow m head d
  forEachSafeFrom d head m pos (follow m pos d) bodies

/-- `eh_list_for_each_entry_continue_safe`. -/
def ehListForEachContinueSafe (m : Memory) (pos : Nat) (bodies : List (List Edit)) :
    Memory × List Nat :=
  let pos := follow m pos d
  forEachSafeFrom d head m pos (follow m pos d) bodies

end Loops

inductive Op where
  | edit (e : Edit)
  | empty (head : Nat)
  | forEach (d : Dir) (head fuel : Nat)
  | forEachContinue (d : Dir) (pos head fuel : Nat)
  | forEachSafe (d : Dir) (head : Nat) (bodies : List (List Edit))
  | forEachContinueSafe (d : Dir) (pos head : Nat) (bodies : List (List Edit))

inductive Result where
  | void
  | empty (isEmpty : Bool)
  | visited (nodes : Option (List Nat))
deriving DecidableEq

def step (m : Memory) : Op → Memory × Result
  | .edit e => (edit m e, .void)
  | .empty head => (m, .empty (ehListEmpty m head))
  | .forEach d head fuel => (m, .visited (ehListForEach d head m fuel))
  | .forEachContinue d pos head fuel => (m, .visited (ehListForEachContinue d head m fuel pos))
  | .forEachSafe d head bodies =>
    let done := ehListForEachSafe d head m bodies
    (done.1, .visited (some done.2))
  | .forEachContinueSafe d pos head bodies =>
    let done := ehListForEachContinueSafe d head m pos bodies
    (done.1, .visited (some done.2))

def run (m : Memory) : List Op → Memory × List Result
  | [] => (m, [])
  | op :: ops =>
    let done := step m op
    let rest := run done.1 ops
    (rest.1, done.2 :: rest.2)

end EventHub.EhList
