import EventHub.Formatio.Scan
import Mathlib.Data.List.GetD
import Mathlib.Logic.Function.Basic

/-! The three kinds of output streams. -/

namespace EventHub.Formatio

/-- The bytes between `cache` and `pos`, the size of the cache, and the buffers that have been
passed to `write`. -/
structure StreamFunction where
  cache : List UInt8
  size : Nat
  written : List (List UInt8)
deriving DecidableEq, Repr

structure StreamFunctionNoCache where
  written : List (List UInt8)
  finished : Nat
deriving DecidableEq, Repr

/-- The pointers of the stream, the memory, and the addresses stored to so far. -/
structure StreamMemory where
  buf : Nat
  pos : Nat
  stop : Nat
  byte : Nat → UInt8
  stored : List Nat

inductive Stream
  | function (f : StreamFunction)
  | functionNoCache (f : StreamFunctionNoCache)
  | memory (m : StreamMemory)

def ehStreamFunctionInit (size : Nat) : StreamFunction := ⟨[], size, []⟩

def ehStreamFunctionNoCacheInit : StreamFunctionNoCache := ⟨[], 0⟩

def ehStreamMemoryInit (buf size : Nat) (byte : Nat → UInt8) : StreamMemory :=
  ⟨buf, buf, buf + size, byte, []⟩

namespace StreamFunction

def flush (f : StreamFunction) : StreamFunction :=
  { f with cache := [], written := f.written ++ [f.cache] }

def inByte (f : StreamFunction) (ch : UInt8) : StreamFunction :=
  let (f, out) :=
    if f.cache.length < f.size then ({ f with cache := f.cache ++ [ch] }, ch == '\n'.toUInt8)
    else (f, false)
  if f.cache.length = f.size ∨ out then f.flush else f

def finish (f : StreamFunction) : StreamFunction := if f.cache ≠ [] then f.flush else f

end StreamFunction

namespace StreamMemory

/-- `*addr = value`. -/
def store (m : StreamMemory) (addr : Nat) (value : UInt8) : StreamMemory :=
  { m with byte := Function.update m.byte addr value, stored := m.stored ++ [addr] }

def inByte (m : StreamMemory) (ch : UInt8) : StreamMemory :=
  if m.pos < m.stop then { m.store m.pos ch with pos := m.pos + 1 } else m

def finish (m : StreamMemory) : StreamMemory :=
  if m.pos < m.stop then m.store m.pos 0 else m.store (m.stop - 1) 0

end StreamMemory

def streamoutInByte (stream : Stream) (ch : UInt8) : Stream :=
  match stream with
  | .function f => .function (f.inByte ch)
  | .functionNoCache f => .functionNoCache { f with written := f.written ++ [[ch]] }
  | .memory m => .memory (m.inByte ch)

def streamoutFinish (stream : Stream) : Stream :=
  match stream with
  | .function f => .function f.finish
  | .functionNoCache f => .functionNoCache { f with finished := f.finished + 1 }
  | .memory m => .memory m.finish

/-- The return value and the stream. -/
def streamoutVprintf (stream : Stream) (fmt : List UInt8) (args : VaList) :
    Option (Int × Stream) :=
  (formatted args fmt).map fun p => (wrapInt p.n, p.bytes.foldl streamoutInByte stream)

def ehVsnprintf (byte : Nat → UInt8) (buf size : Nat) (fmt : List UInt8) (args : VaList) :
    Option (Int × Stream) :=
  (streamoutVprintf (.memory (ehStreamMemoryInit buf size byte)) fmt args).map fun (n, stream) =>
    (n, streamoutFinish stream)

def ehStreamVprintf (stream : Stream) (fmt : List UInt8) (args : VaList) :
    Option (Int × Stream) :=
  streamoutVprintf stream fmt args

/-- `(char)c`. -/
def charOf (c : Int) : UInt8 := UInt8.ofNat (c % 256).toNat

def ehStreamPutc (stream : Stream) (c : Int) : Stream := streamoutInByte stream (charOf c)

def ehStreamPuts (stream : Stream) (s : List UInt8) : Int × Stream :=
  let s := s.takeWhile (· ≠ 0)
  match stream with
  | .functionNoCache f =>
    (wrapInt s.length, .functionNoCache { f with written := f.written ++ [s] })
  | stream => (wrapInt s.length, s.foldl streamoutInByte stream)

def ehStreamFinish (stream : Stream) : Stream := streamoutFinish stream

section Memory
variable {byte : Nat → UInt8} {buf size : Nat} {bs : List UInt8} {m : StreamMemory}

/-- The bytes `bs` went to the buffer, as far as it reaches. -/
structure Filled (byte : Nat → UInt8) (buf size : Nat) (bs : List UInt8) (m : StreamMemory) :
    Prop where
  pos : m.pos = buf + min bs.length size
  stop : m.stop = buf + size
  content : ∀ a, m.byte a =
    if buf ≤ a ∧ a < buf + min bs.length size then bs.getD (a - buf) 0 else byte a
  stored : ∀ a ∈ m.stored, buf ≤ a ∧ a < buf + size

theorem Filled.init (byte : Nat → UInt8) (buf size : Nat) :
    Filled byte buf size [] (ehStreamMemoryInit buf size byte) where
  pos := by simp [ehStreamMemoryInit]
  stop := rfl
  content a := by rw [if_neg (by simp)]; rfl
  stored := by simp [ehStreamMemoryInit]

theorem Filled.inByte (h : Filled byte buf size bs m) (ch : UInt8) :
    Filled byte buf size (bs ++ [ch]) (m.inByte ch) := by
  have pos := h.pos
  have stop := h.stop
  unfold StreamMemory.inByte
  split
  · next room =>
    have short : bs.length < size := by omega
    have before : min bs.length size = bs.length := by omega
    have after : min (bs ++ [ch]).length size = bs.length + 1 := by simp; omega
    rw [before] at pos
    refine ⟨?_, h.stop, fun a => ?_, fun a mem => ?_⟩
    · rw [after]
      dsimp only
      omega
    · rw [after]
      dsimp only [StreamMemory.store]
      by_cases here : a = m.pos
      · rw [here, Function.update_self, if_pos (by omega), pos, Nat.add_sub_cancel_left]
        simp
      · rw [Function.update_of_ne here, h.content, before]
        by_cases inside : buf ≤ a ∧ a < buf + bs.length
        · rw [if_pos inside, if_pos (by omega),
            List.getD_append _ _ _ _ (by omega : a - buf < bs.length)]
        · rw [if_neg inside, if_neg (by omega)]
    · rcases List.mem_append.mp mem with mem | mem
      · exact h.stored a mem
      · rw [List.mem_singleton.mp mem]
        omega
  · next full =>
    have long : size ≤ bs.length := by omega
    have before : min bs.length size = size := by omega
    have after : min (bs ++ [ch]).length size = size := by simp; omega
    rw [before] at pos
    refine ⟨by rw [after]; exact pos, h.stop, fun a => ?_, h.stored⟩
    rw [h.content, before, after]
    by_cases inside : buf ≤ a ∧ a < buf + size
    · rw [if_pos inside, if_pos inside,
        List.getD_append _ _ _ _ (by omega : a - buf < bs.length)]
    · rw [if_neg inside, if_neg inside]

theorem Filled.foldl (h : Filled byte buf size bs m) (bs' : List UInt8) :
    ∃ m', bs'.foldl streamoutInByte (.memory m) = .memory m' ∧
      Filled byte buf size (bs ++ bs') m' := by
  induction bs' generalizing bs m with
  | nil => exact ⟨m, rfl, by simpa using h⟩
  | cons ch bs' ih =>
    obtain ⟨m', run, filled⟩ := ih (h.inByte ch)
    exact ⟨m', run, by simpa using filled⟩

/-- The memory in which `bs` stands at `buf`, cut to `size - 1` bytes and terminated. -/
def terminated (byte : Nat → UInt8) (buf size : Nat) (bs : List UInt8) : Nat → UInt8 := fun a =>
  if buf ≤ a ∧ a < buf + min bs.length (size - 1) then bs.getD (a - buf) 0
  else if a = buf + min bs.length (size - 1) then 0
  else byte a

theorem Filled.finish (h : Filled byte buf size bs m) (some : 0 < size) :
    m.finish.byte = terminated byte buf size bs ∧
      ∀ a ∈ m.finish.stored, buf ≤ a ∧ a < buf + size := by
  have pos := h.pos
  have stop := h.stop
  have last : m.finish = m.store (buf + min bs.length (size - 1)) 0 := by
    unfold StreamMemory.finish
    split
    · congr 1
      omega
    · congr 1
      omega
  rw [last]
  constructor
  · funext a
    simp only [StreamMemory.store, terminated]
    by_cases here : a = buf + min bs.length (size - 1)
    · rw [here, Function.update_self, if_neg (by omega), if_pos rfl]
    · rw [Function.update_of_ne here, if_neg here, h.content]
      by_cases inside : buf ≤ a ∧ a < buf + min bs.length (size - 1)
      · rw [if_pos inside, if_pos (by omega)]
      · rw [if_neg inside, if_neg (by omega)]
  · intro a mem
    rcases List.mem_append.mp mem with mem | mem
    · exact h.stored a mem
    · rw [List.mem_singleton.mp mem]
      omega

theorem Filled.finish_empty (h : Filled byte buf 0 bs m) : buf - 1 ∈ m.finish.stored := by
  have pos := h.pos
  have stop := h.stop
  unfold StreamMemory.finish
  rw [if_neg (by omega), stop]
  simp [StreamMemory.store]

end Memory

end EventHub.Formatio
