import EventHub.Library.Circular
import EventHub.Library.Transition
import EventHub.Ringbuf.Buffer

/-! One producer and one consumer on a shared ring buffer, one access a step.
A step of either side is one load of an index, one byte copied or one store of
an index; the values computed in between are local. `published` and `consumed`
are histories: the bytes made available by every store of `w`, and the bytes
read or passed over by every store of `r`. No step reads them. -/

namespace EventHub.Ringbuf.Concurrent
open Library

inductive WriteCall
  | write (data : List UInt8) (len : Int) (enough : len ≤ data.length)
  | draft (offset : Int) (data : List UInt8) (len : Int) (enough : len ≤ data.length)
  | skip (len : Int)

inductive ReadCall
  | read (len : Int)
  | skip (len : Int)
  | peek (offset len : Int)
  | peekCopy (offset len : Int)
  | clear

namespace WriteCall

def len : WriteCall → Int
  | write _ len _ | draft _ _ len _ | skip len => len

def offset : WriteCall → Int
  | draft offset _ _ _ => offset
  | write .. | skip _ => 0

def data : WriteCall → List UInt8
  | write data _ _ | draft _ data _ _ => data
  | skip _ => []

end WriteCall

namespace ReadCall

def offset : ReadCall → Int
  | peek offset _ | peekCopy offset _ => offset
  | read _ | skip _ | clear => 0

end ReadCall

inductive Producer
  | idle
  | loadR (c : WriteCall) (w : Nat)
  | loadBase (c : WriteCall) (wl : Int)
  | copy (c : WriteCall) (wl : Int) (base i : Nat)
  | loadW (c : WriteCall) (wl : Int)
  | storeW (c : WriteCall) (wl : Int) (value : Nat)

/-- Where the consumer is inside a call; `got` are the bytes copied so far. -/
inductive Consumer
  | idle
  | loadR (c : ReadCall) (w : Nat)
  | loadBase (c : ReadCall) (size rl : Int)
  | copy (c : ReadCall) (rl : Int) (base i : Nat) (got : List UInt8)
  | loadR' (c : ReadCall) (rl : Int) (got : List UInt8)
  | storeR (value : Nat) (taken : List UInt8)

/-- `lent` are the spans of the backing buffer handed out by `eh_ringbuf_peek`
since the last release: the consumer may look at them until it releases. -/
structure State where
  w : Nat
  r : Nat
  buf : List UInt8
  producer : Producer
  consumer : Consumer
  lent : List (Nat × Int)
  published : List UInt8
  consumed : List UInt8

inductive Label
  | write (c : WriteCall)
  | read (c : ReadCall)
  | producer
  | consumer

/-- The cell of byte `i` of a copy starting at cell `base`, in two parts. -/
def cellOf (size base i : Nat) : Nat :=
  if i < size - base then base + i else i - (size - base)

/-- The `k` bytes stored from index `start` on. -/
def bytesFrom (size : Nat) (buf : List UInt8) (start k : Nat) : List UInt8 :=
  (List.range k).map fun i => buf.getD ((start + i) % size) 0

/-- What a store of `w` makes available. -/
def WriteCall.published (c : WriteCall) (size : Nat) (buf : List UInt8) (w wl : Nat) :
    List UInt8 :=
  match c with
  | write data _ _ => data.take wl
  | draft .. | skip _ => bytesFrom size buf w wl

def producerStep (size : Nat) (s : State) : Except Fault State :=
  match s.producer with
  | .idle => pure s
  | .loadR c w => do
    let room ← freeSizeOfLoads size w s.r
    let freeSize ← int32 (room - c.offset)
    let wl := clampLen c.len freeSize
    if wl ≤ 0 then pure { s with producer := .idle }
    else match c with
      | .skip _ => pure { s with producer := .loadW c wl }
      | .write .. | .draft .. => pure { s with producer := .loadBase c wl }
  | .loadBase c wl =>
    pure { s with producer := .copy c wl (toUint32 (s.w + c.offset) % size) 0 }
  | .copy c wl base i =>
    if i < wl then
      pure { s with
        buf := s.buf.set (cellOf size base i) (c.data.getD i 0)
        producer := .copy c wl base (i + 1) }
    else match c with
      | .draft .. => pure { s with producer := .idle }
      | .write .. | .skip _ => pure { s with producer := .loadW c wl }
  | .loadW c wl => do
    let value ← ehRingbufFix size (toUint32 (s.w + wl))
    pure { s with producer := .storeW c wl value }
  | .storeW c wl value =>
    pure { s with
      w := value
      producer := .idle
      published := s.published ++ c.published size s.buf s.w wl.toNat }

def consumerStep (size : Nat) (s : State) : Except Fault State :=
  match s.consumer with
  | .idle => pure s
  | .loadR .clear w =>
    -- `ringbuf->r = ringbuf->w`: the load was the call's first access
    let passed := (w + 2 * size - s.r) % (2 * size)
    pure { s with consumer := .storeR w (bytesFrom size s.buf s.r passed) }
  | .loadR c w => do
    let held ← sizeOfLoads size w s.r
    match c with
    | .read len =>
      let rl := clampLen len held
      if rl ≤ 0 then pure { s with consumer := .idle }
      else pure { s with consumer := .loadBase c held rl }
    | .skip len =>
      let rl := clampLen len held
      if rl ≤ 0 then pure { s with consumer := .idle }
      else pure { s with consumer := .loadR' c rl (bytesFrom size s.buf s.r rl.toNat) }
    | .peek offset len =>
      let left ← int32 (held - offset)
      if left < len then pure { s with consumer := .idle }
      else pure { s with consumer := .loadBase c left len }
    | .peekCopy offset len =>
      let left ← int32 (held - offset)
      if left < len then pure { s with consumer := .idle }
      else if len < 0 then .error .outOfBounds
      else pure { s with consumer := .loadBase c left len }
    | .clear => pure s
  | .loadBase c left rl => do
    let base := toUint32 (s.r + c.offset) % size
    let readSizeFirstMax ← int32 ((size : Int) - base)
    match c with
    | .peek .. =>
      if rl ≤ readSizeFirstMax then
        pure { s with
          consumer := .idle
          lent := (base, if left > readSizeFirstMax then readSizeFirstMax else left)
            :: s.lent }
      else pure { s with consumer := .copy c rl base 0 [] }
    | _ => pure { s with consumer := .copy c rl base 0 [] }
  | .copy c rl base i got =>
    if i < rl then
      pure { s with
        consumer := .copy c rl base (i + 1) (got ++ [s.buf.getD (cellOf size base i) 0]) }
    else match c with
      | .read _ => pure { s with consumer := .loadR' c rl got }
      | _ => pure { s with consumer := .idle }
  | .loadR' _ rl got => do
    let value ← ehRingbufFix size (toUint32 (s.r + rl))
    pure { s with consumer := .storeR value got }
  | .storeR value taken =>
    pure { s with
      r := value
      consumer := .idle
      lent := []
      consumed := s.consumed ++ taken }

/-- A call performs its first load, of `w`, at once; a side inside a call makes
no other. -/
def step (size : Nat) (s : State) : Label → Except Fault State
  | .write c =>
    match s.producer with
    | .idle => pure { s with producer := .loadR c s.w }
    | _ => pure s
  | .read c =>
    match s.consumer with
    | .idle => pure { s with consumer := .loadR c s.w }
    | _ => pure s
  | .producer => producerStep size s
  | .consumer => consumerStep size s

def init (storage : List UInt8) : State :=
  ⟨0, 0, storage, .idle, .idle, [], [], []⟩

/-- Every interleaving of the two sides. -/
def Reach (size : Nat) (storage : List UInt8) (ls : List Label) (s : State) : Prop :=
  Run (fun s l t => step size s l = .ok t) (init storage) ls s

def State.overwrites (size : Nat) (s : State) : Option Nat :=
  match s.producer with
  | .copy _ wl base i => if i < wl then some (cellOf size base i) else none
  | _ => none

def State.reads (size : Nat) (s : State) (cell : Nat) : Prop :=
  (∃ c rl base i got, s.consumer = .copy c rl base i got ∧ i < rl ∧
      cell = cellOf size base i) ∨
    ∃ span ∈ s.lent, span.1 ≤ cell ∧ (cell : Int) < span.1 + span.2

/-- Cell `cell` holds a byte that is published and not yet released. -/
def State.Unreleased (size : Nat) (s : State) (cell : Nat) : Prop :=
  ∃ t, s.consumed.length ≤ t ∧ t < s.published.length ∧ t % size = cell

structure Safe (size : Nat) (s : State) : Prop where
  no_overwrite : ∀ cell, s.overwrites size = some cell → ¬s.Unreleased size cell
  reads_published : ∀ cell, s.reads size cell → s.Unreleased size cell
  intact : Circular.Holds s.buf size (fun t => s.published[t]?)
    s.consumed.length s.published.length
  in_order : s.consumed <+: s.published

end EventHub.Ringbuf.Concurrent
