import EventHub.Library.Machine
import Mathlib.Logic.Function.Basic

/-! The hash table of `eh_hashtbl.c`. A bucket is the list of its nodes, or `none`
while its `next` is `NULL`: it waits to be remade. Every function takes the hash of a
key as a parameter; the source's is `fnv1a`. -/

namespace EventHub.Hashtbl
open Library

def retOk : Int := 0
def retInvalidParam : Int := -2
def retMallocError : Int := -8
def retExists : Int := -12
def retNotExists : Int := -13

/-- `linked` says that the node's list head does not point at itself; `key` are the
`key_len` bytes of `kv`. -/
structure EhHashtblNode where
  linked : Bool
  hashVal : Nat
  valueLen : Nat
  key : List UInt8

structure EhHashtbl where
  table : Nat → Option (List Nat)
  mask : Nat
  threshold : Nat
  count : Nat

structure Memory where
  tbl : EhHashtbl
  node : Nat → EhHashtblNode

/-- `fnv1a`; `fnv1a_str` is the same over the bytes before the terminator. -/
def fnv1a (data : List UInt8) : Nat :=
  data.foldl (fun hash b => (hash ^^^ b.toNat) * 16777619 % 4294967296) 2166136261

namespace EhHashtbl

/-- `eh_hash_table_node_is_need_remake`. -/
def isNeedRemake (t : EhHashtbl) (idx : Nat) : Bool := (t.table idx).isNone

def nodes (t : EhHashtbl) (idx : Nat) : List Nat := (t.table idx).getD []

def setBucket (t : EhHashtbl) (idx : Nat) (bucket : List Nat) : EhHashtbl :=
  { t with table := Function.update t.table idx (some bucket) }

/-- `eh_list_add` to the bucket's head. -/
def listAdd (t : EhHashtbl) (x idx : Nat) : EhHashtbl := t.setBucket idx (x :: t.nodes idx)

/-- `eh_list_del` of a node, whichever bucket it is in. -/
def listDel (t : EhHashtbl) (x : Nat) : EhHashtbl :=
  { t with table := fun idx => (t.table idx).map fun bucket => bucket.erase x }

/-- `eh_list_head_init` of a bucket that waits to be remade. -/
def initIfNeeded (t : EhHashtbl) (idx : Nat) : EhHashtbl :=
  if t.isNeedRemake idx then t.setBucket idx [] else t

end EhHashtbl

def Memory.setNode (m : Memory) (x : Nat) (node : EhHashtblNode) : Memory :=
  { m with node := Function.update m.node x node }

def Memory.setLinked (m : Memory) (x : Nat) (linked : Bool) : Memory :=
  m.setNode x { m.node x with linked }

/-- A `float`: `mant * 2 ^ exp` with a 24-bit mantissa. -/
inductive LoadFactor
  | finite (negative : Bool) (mant : Fin (2 ^ 24)) (exp : Int)
  | inf (negative : Bool)
  | nan

namespace LoadFactor

/-- `load_factor <= 0.0f`. -/
def nonpositive : LoadFactor → Bool
  | finite negative mant _ => negative || mant.val == 0
  | inf negative => negative
  | nan => false

/-- `(unsigned int)(2 ^ shift * load_factor)`; the conversion is defined where the
value fits. -/
def threshold (shift : Nat) : LoadFactor → Option Nat
  | finite _ mant exp =>
    let e := exp + shift
    let value := if 0 ≤ e then mant.val * 2 ^ e.toNat else mant.val / 2 ^ (-e).toNat
    if value < 4294967296 then some value else none
  | inf _ | nan => none

end LoadFactor

/-- With `EH_CONFIG_HASHTBL_MIN_SIZE = 2 ^ shift`; `alloc` are the results of the two
allocations. Where the conversion is undefined there is no table. -/
def ehHashtblCreate (shift : Nat) (loadFactor : LoadFactor) (alloc : Bool × Bool) :
    Except Int (Option EhHashtbl) :=
  if loadFactor.nonpositive then .error retInvalidParam
  else if ¬alloc.1 then .error retMallocError
  else match loadFactor.threshold shift with
    | none => .ok none
    | some threshold =>
      if ¬alloc.2 then .error retMallocError
      else .ok (some {
        table := fun i => if i < 2 ^ shift then some [] else none
        mask := 2 ^ shift - 1
        threshold
        count := 0 })

/-- `alloc` is the result of the allocation. -/
def ehHashtblResize (t : EhHashtbl) (alloc : Bool) : Int × EhHashtbl :=
  let oldSize := (t.mask + 1) % 4294967296
  let newMask := ((t.mask <<< 1) % 4294967296 + 1) % 4294967296
  if ¬alloc then (retMallocError, t)
  else (retOk, { t with
    table := fun i => if i < oldSize then t.table i else none
    mask := newMask
    threshold := (t.threshold <<< 1) % 4294967296 })

/-- `mask_tmp` at the end of the search for a bucket that need not be remade. -/
def madeMask (t : EhHashtbl) (idx maskTmp : Nat) : Nat :=
  if maskTmp ≠ 0 ∧ t.isNeedRemake (idx &&& maskTmp) then madeMask t idx (maskTmp >>> 1)
  else maskTmp
termination_by maskTmp
decreasing_by
  rw [Nat.shiftRight_eq_div_pow]
  omega

/-- One node of the old bucket. -/
def remakeNode (hashVal : Nat → Nat) (oldIdx : Nat) (t : EhHashtbl) (pos : Nat) : EhHashtbl :=
  let newIdx := hashVal pos &&& t.mask
  if newIdx ≠ oldIdx then ((t.listDel pos).initIfNeeded newIdx).listAdd pos newIdx else t

def ehHashtblTryRemake (hashVal : Nat → Nat) (t : EhHashtbl) (idx : Nat) : EhHashtbl :=
  if t.isNeedRemake idx then
    let oldIdx := idx &&& madeMask t idx (t.mask >>> 1)
    ((t.nodes oldIdx).foldl (remakeNode hashVal oldIdx) t).initIfNeeded idx
  else t

namespace Memory

def hashVal (m : Memory) (x : Nat) : Nat := (m.node x).hashVal

def tryRemake (m : Memory) (idx : Nat) : Memory :=
  { m with tbl := ehHashtblTryRemake m.hashVal m.tbl idx }

end Memory

/-- The node at the new address `x`. -/
def ehHashtblNodeNewRefresh (hash : List UInt8 → Nat) (m : Memory) (x : Nat)
    (key : List UInt8) (valueLen : Nat) : Memory :=
  m.setNode x ⟨false, hash key, valueLen, key⟩

/-- The copy at `x` takes the place of the node `old`. -/
def takeOver (m : Memory) (old x valueLen : Nat) : Memory :=
  let linked := (m.node old).linked
  let m := m.setNode x { m.node old with valueLen }
  -- added behind the old node, which then leaves the list
  if linked then
    { m with tbl := { m.tbl with
        table := fun i => (m.tbl.table i).map fun bucket =>
          bucket.map fun y => if y = old then x else y } }
  else m

/-- The node returned; `alloc` is the address allocated, if any. -/
def ehHashtblNodeRenew (m : Memory) (old valueLen : Nat) (alloc : Option Nat) :
    Option Nat × Memory :=
  if (m.node old).valueLen = valueLen then (some old, m)
  else match alloc with
    | none => (none, m)
    | some x => (some x, takeOver m old x valueLen)

def ehHashtblNodeDelete (m : Memory) (x : Nat) : Memory :=
  if (m.node x).linked then
    { m with tbl := { m.tbl.listDel x with count := (m.tbl.count + 4294967295) % 4294967296 } }
  else m

def ehHashtblInsert (m : Memory) (x : Nat) (alloc : Bool) : Int × Memory :=
  if (m.node x).linked then (retExists, m)
  else
    let (ret, t) :=
      if (m.tbl.count + 1) % 4294967296 ≥ m.tbl.threshold ∧ m.tbl.mask ≠ 4294967295 then
        ehHashtblResize m.tbl alloc
      else (retOk, m.tbl)
    if ret ≠ retOk then (ret, m)
    else
      let idx := m.hashVal x &&& t.mask
      let t := ehHashtblTryRemake m.hashVal t idx
      let t := t.listAdd x idx
      let t := { t with count := (t.count + 1) % 4294967296 }
      (retOk, { m.setLinked x true with tbl := t })

def ehHashtblRemove (m : Memory) (x : Nat) : Memory :=
  if (m.node x).linked then
    let t := { m.tbl.listDel x with count := (m.tbl.count + 4294967295) % 4294967296 }
    { m.setLinked x false with tbl := t }
  else m

/-- The loop of the two find functions: the first node with the `keyLen` bytes of
`key`. -/
def findIn (m : Memory) (key : List UInt8) (hashVal : Nat) : (Int × Option Nat) × Memory :=
  let idx := hashVal &&& m.tbl.mask
  let m := m.tryRemake idx
  match (m.tbl.nodes idx).find? fun x => (m.node x).key = key with
  | some x => ((retOk, some x), m)
  | none => ((retNotExists, none), m)

def ehHashtblFind (hash : List UInt8 → Nat) (m : Memory) (key : List UInt8) :
    (Int × Option Nat) × Memory :=
  findIn m key (hash key)

/-- The length of a string is cut to the 16 bits of `key_len`, its hash is not. -/
def ehHashtblFindWithString (hash : List UInt8 → Nat) (m : Memory) (str : List UInt8) :
    (Int × Option Nat) × Memory :=
  findIn m (str.take (str.length % 65536)) (hash str)

/-- The nodes visited by `eh_hashtbl_for_each_safe`, in order. -/
def ehHashtblForEachSafe (t : EhHashtbl) : List Nat :=
  (List.range (t.mask + 1)).flatMap fun i => if t.isNeedRemake i then [] else t.nodes i

/-- The nodes freed by `eh_hashtbl_destroy`, in order. -/
def destroyFrom (t : EhHashtbl) : List Nat → List Nat
  | [] => []
  | i :: rest =>
    if t.isNeedRemake i then destroyFrom t rest
    else t.nodes i ++ destroyFrom ((t.nodes i).foldl EhHashtbl.listDel t) rest

def ehHashtblDestroy (t : EhHashtbl) : List Nat := destroyFrom t (List.range (t.mask + 1))

end EventHub.Hashtbl
