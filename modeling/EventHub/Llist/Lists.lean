import Mathlib.Logic.Function.Basic

/-! The lists of `eh_llist.h` and `eh_llist.c`: singly linked, with a pointer to the last node. A
head begins with its `first`, so that its address serves as that of a node. -/

namespace EventHub.Llist

/-- A `struct eh_llist_node *`: `NULL`, a head as a node, or a node. -/
inductive Ptr (H N : Type) where
  | null
  | head (h : H)
  | node (n : N)
deriving DecidableEq

/-- The nodes and the heads; `next (.head h)` is `h->first`. -/
structure Memory (H N : Type) where
  next : Ptr H N → Ptr H N
  last : H → Ptr H N

inductive Result (H N : Type) where
  | void
  | wasEmpty (b : Bool)
  | popped (p : Ptr H N)
deriving DecidableEq

namespace Memory
variable {H N : Type}

def ehLlistEmpty (m : Memory H N) [DecidableEq H] [DecidableEq N] (h : H) : Bool :=
  m.next (.head h) = .null

def ehLlistLast (m : Memory H N) (h : H) : Ptr H N := m.last h

variable [DecidableEq H] [DecidableEq N]

/-- `p->next`; there is none behind `NULL`. -/
def load (m : Memory H N) (p : Ptr H N) : Option (Ptr H N) :=
  if p = .null then none else some (m.next p)

/-- `p->next = q`. -/
def store (m : Memory H N) (p q : Ptr H N) : Option (Memory H N) :=
  if p = .null then none else some { m with next := Function.update m.next p q }

/-- `h->last = p`. -/
def setLast (m : Memory H N) (h : H) (p : Ptr H N) : Memory H N :=
  { m with last := Function.update m.last h p }

def ehLlistHeadMoveInit (m : Memory H N) (old new : H) : Option (Memory H N) := do
  let m ← m.store (.head new) (m.next (.head old))
  let m := m.setLast new (m.last old)
  let m ← m.store (.head old) .null
  pure (m.setLast old .null)

def ehLlistNodeInit (m : Memory H N) (node : Ptr H N) : Option (Memory H N) := m.store node node

def ehLlistAddBatch (m : Memory H N) (newFirst newLast : Ptr H N) (h : H) :
    Option (Memory H N × Bool) := do
  let m ← m.store newLast (m.next (.head h))
  let m ← m.store (.head h) newFirst
  if m.next newLast = .null then pure (m.setLast h newLast, true)
  else pure (m, false)

def ehLlistAddBatchTail (m : Memory H N) (newFirst newLast : Ptr H N) (h : H) :
    Option (Memory H N × Bool) := do
  let m ← m.store newLast .null
  if m.ehLlistEmpty h then
    let m ← m.store (.head h) newFirst
    pure (m.setLast h newLast, true)
  else
    let m ← m.store (m.last h) newFirst
    pure (m.setLast h newLast, false)

def ehLlistInsert (m : Memory H N) (prev new : Ptr H N) (h : H) : Option (Memory H N) := do
  let next ← m.load prev
  let m ← m.store new next
  let m ← m.store prev new
  if m.next new = .null then pure (m.setLast h new) else pure m

def ehLlistAdd (m : Memory H N) (new : Ptr H N) (h : H) : Option (Memory H N × Bool) :=
  m.ehLlistAddBatch new new h

def ehLlistAddTail (m : Memory H N) (new : Ptr H N) (h : H) : Option (Memory H N × Bool) :=
  m.ehLlistAddBatchTail new new h

def ehLlistDel (m : Memory H N) (prevNode delNode : Ptr H N) : Option (Memory H N) := do
  let next ← m.load delNode
  m.store prevNode next

def ehLlistDelInit (m : Memory H N) (prevNode delNode : Ptr H N) : Option (Memory H N) := do
  let m ← m.ehLlistDel prevNode delNode
  m.ehLlistNodeInit delNode

def ehLlistDelFirstInit (m : Memory H N) (h : H) : Option (Memory H N) :=
  m.ehLlistDelInit (.head h) (m.next (.head h))

def ehLlistPush (m : Memory H N) (new : Ptr H N) (h : H) : Option (Memory H N) :=
  (m.ehLlistAdd new h).map Prod.fst

def ehLlistPop (m : Memory H N) (h : H) : Option (Memory H N × Ptr H N) := do
  let node := m.next (.head h)
  if node = .null then pure (m, node)
  else
    let m ← m.ehLlistDelInit (.head h) node
    pure (m, node)

def ehLlistEnqueue (m : Memory H N) (new : Ptr H N) (h : H) : Option (Memory H N) :=
  (m.ehLlistAddTail new h).map Prod.fst

def ehLlistDequeue (m : Memory H N) (h : H) : Option (Memory H N × Ptr H N) := m.ehLlistPop h

def ehLlistDelNodeInForEachSafe (m : Memory H N) (list : H) (prev next : Ptr H N) :
    Option (Memory H N) := do
  let m ← m.store prev next
  if next = .null then pure (m.setLast list prev) else pure m

/-- The rounds of `eh_llist_for_each_safe`: each deletes its node or keeps it, and after the last
decision the loop is left. -/
def ehLlistForEachSafe (m : Memory H N) (list : H) (prev pos : Ptr H N) :
    List Bool → Option (Memory H N)
  | [] => some m
  | delete :: decisions =>
    if pos = .null then some m
    else do
      let next ← m.load pos
      let m ← if delete then m.ehLlistDelNodeInForEachSafe list prev next else some m
      let link ← m.load prev
      ehLlistForEachSafe m list (if link = next then prev else pos) next decisions

end Memory

inductive Op (H N : Type) where
  | link (n : N) (p : Ptr H N)
  | addBatch (first : N) (rest : List N) (h : H)
  | addBatchTail (first : N) (rest : List N) (h : H)
  | add (n : N) (h : H)
  | addTail (n : N) (h : H)
  | insert (prev : Ptr H N) (n : N) (h : H)
  | push (n : N) (h : H)
  | enqueue (n : N) (h : H)
  | pop (h : H)
  | dequeue (h : H)
  | delFirstInit (h : H)
  | headMoveInit (old new : H)
  | forEachSafe (h : H) (start : Ptr H N) (decisions : List Bool)

/-- One step; `none` is an access through `NULL`. -/
def Memory.step {H N : Type} [DecidableEq H] [DecidableEq N] (m : Memory H N) :
    Op H N → Option (Memory H N × Result H N)
  | .link n p => (m.store (.node n) p).map (·, .void)
  | .addBatch first rest h =>
    (m.ehLlistAddBatch (.node first) (.node (rest.getLastD first)) h).map
      fun (m, b) => (m, .wasEmpty b)
  | .addBatchTail first rest h =>
    (m.ehLlistAddBatchTail (.node first) (.node (rest.getLastD first)) h).map
      fun (m, b) => (m, .wasEmpty b)
  | .add n h => (m.ehLlistAdd (.node n) h).map fun (m, b) => (m, .wasEmpty b)
  | .addTail n h => (m.ehLlistAddTail (.node n) h).map fun (m, b) => (m, .wasEmpty b)
  | .insert prev n h => (m.ehLlistInsert prev (.node n) h).map (·, .void)
  | .push n h => (m.ehLlistPush (.node n) h).map (·, .void)
  | .enqueue n h => (m.ehLlistEnqueue (.node n) h).map (·, .void)
  | .pop h => (m.ehLlistPop h).map fun (m, p) => (m, .popped p)
  | .dequeue h => (m.ehLlistDequeue h).map fun (m, p) => (m, .popped p)
  | .delFirstInit h => (m.ehLlistDelFirstInit h).map (·, .void)
  | .headMoveInit old new => (m.ehLlistHeadMoveInit old new).map (·, .void)
  | .forEachSafe h start decisions => do
    let pos ← m.load start
    let m ← m.ehLlistForEachSafe h start pos decisions
    pure (m, .void)

end EventHub.Llist
