import EventHub.Library.Machine

/-! The ring buffer of `eh_ringbuf.c`.
The indices `w` and `r` are `uint32_t` and run over twice the capacity; every
access reduces them modulo the capacity. Each function returns its value with
the buffer after it, or the fault the call would run into. -/

namespace EventHub.Ringbuf
open Library

structure EhRingbuf where
  w : Nat
  r : Nat
  size : Nat
  buf : List UInt8
deriving DecidableEq, Repr

inductive CreateError
  | invalidParam
  | mallocError
deriving DecidableEq, Repr

/-- `storage` is the memory behind the descriptor, of any contents: the caller's
static buffer or the tail of the allocation, `none` when `eh_malloc` fails. -/
def ehRingbufCreate (size : Int) (storage : Option (List UInt8)) :
    Except CreateError EhRingbuf :=
  if size ≤ 0 then .error .invalidParam
  else match storage with
    | none => .error .mallocError
    | some buf => .ok ⟨0, 0, size.toNat, buf⟩

/-- `eh_ringbuf_fix(ringbuf, pos)`, with `pos` already a `uint32_t`. -/
def ehRingbufFix (size pos : Nat) : Except Fault Nat := do
  let double ← int32 (2 * size)
  pure (pos % toUint32 double)

/-- The body of `eh_ringbuf_size` once `w` and `r` have been loaded. -/
def sizeOfLoads (size w r : Nat) : Except Fault Int := do
  let diff := toInt32 (toUint32 ((w : Int) - r))
  if 0 ≤ diff then pure diff
  else
    let double ← int32 (2 * size)
    int32 (double + diff)

/-- The body of `eh_ringbuf_free_size` once `w` and `r` have been loaded. -/
def freeSizeOfLoads (size w r : Nat) : Except Fault Int := do
  let diff := toInt32 (toUint32 ((w : Int) - r))
  if 0 ≤ diff then int32 (size - diff)
  else
    let sum ← int32 (size + diff)
    int32 (-sum)

def ehRingbufSize (rb : EhRingbuf) : Except Fault Int := sizeOfLoads rb.size rb.w rb.r

def ehRingbufFreeSize (rb : EhRingbuf) : Except Fault Int :=
  freeSizeOfLoads rb.size rb.w rb.r

/-- `len > limit ? limit : len` -/
def clampLen (len limit : Int) : Int := if len > limit then limit else len

/-- The one- or two-part copy of `wl` bytes to offset `w` of the backing buffer. -/
def copyIn (size : Nat) (buf : List UInt8) (w : Nat) (src : List UInt8) (wl : Int) :
    Except Fault (List UInt8) := do
  let writeSizeFirstMax ← int32 ((size : Int) - w)
  if wl ≤ writeSizeFirstMax then
    memcpy buf w src 0 wl.toNat
  else
    let first ← memcpy buf w src 0 writeSizeFirstMax.toNat
    memcpy first 0 src writeSizeFirstMax.toNat (wl - writeSizeFirstMax).toNat

/-- The one- or two-part copy of `rl` bytes from offset `r` of the backing buffer. -/
def copyOut (size : Nat) (buf : List UInt8) (r : Nat) (rl : Int) :
    Except Fault (List UInt8) := do
  let readSizeFirstMax ← int32 ((size : Int) - r)
  if rl ≤ readSizeFirstMax then
    memread buf r rl.toNat
  else
    let first ← memread buf r readSizeFirstMax.toNat
    let second ← memread buf 0 (rl - readSizeFirstMax).toNat
    pure (first ++ second)

def ehRingbufWrite (rb : EhRingbuf) (buf : List UInt8) (len : Int) :
    Except Fault (EhRingbuf × Int) := do
  let freeSize ← ehRingbufFreeSize rb
  let wl := clampLen len freeSize
  if wl ≤ 0 then pure (rb, 0)
  else
    let dst ← copyIn rb.size rb.buf (rb.w % rb.size) buf wl
    let w ← ehRingbufFix rb.size (toUint32 (rb.w + wl))
    pure ({ rb with buf := dst, w := w }, wl)

def ehRingbufDraftWrite (rb : EhRingbuf) (offset : Int) (buf : List UInt8) (len : Int) :
    Except Fault (EhRingbuf × Int) := do
  let room ← ehRingbufFreeSize rb
  let freeSize ← int32 (room - offset)
  let wl := clampLen len freeSize
  if wl ≤ 0 then pure (rb, 0)
  else
    let w := toUint32 (rb.w + offset) % rb.size
    let dst ← copyIn rb.size rb.buf w buf wl
    pure ({ rb with buf := dst }, wl)

def ehRingbufWriteSkip (rb : EhRingbuf) (len : Int) : Except Fault (EhRingbuf × Int) := do
  let freeSize ← ehRingbufFreeSize rb
  let wl := clampLen len freeSize
  if wl ≤ 0 then pure (rb, 0)
  else
    let w ← ehRingbufFix rb.size (toUint32 (rb.w + wl))
    pure ({ rb with w := w }, wl)

/-- The bytes copied to the caller stand beside the returned count. -/
def ehRingbufRead (rb : EhRingbuf) (len : Int) :
    Except Fault (EhRingbuf × Int × List UInt8) := do
  let size ← ehRingbufSize rb
  let rl := clampLen len size
  if rl ≤ 0 then pure (rb, 0, [])
  else
    let out ← copyOut rb.size rb.buf (rb.r % rb.size) rl
    let r ← ehRingbufFix rb.size (toUint32 (rb.r + rl))
    pure ({ rb with r := r }, rl, out)

def ehRingbufReadSkip (rb : EhRingbuf) (len : Int) : Except Fault (EhRingbuf × Int) := do
  let size ← ehRingbufSize rb
  let rl := clampLen len size
  if rl ≤ 0 then pure (rb, 0)
  else
    let r ← ehRingbufFix rb.size (toUint32 (rb.r + rl))
    pure ({ rb with r := r }, rl)

/-- What `eh_ringbuf_peek` hands out: a span of the backing buffer itself, or a
copy in the caller's buffer with `*len` left as it was. -/
inductive Peek
  | direct (offset : Nat) (len : Int)
  | copied (bytes : List UInt8)
deriving DecidableEq, Repr

def ehRingbufPeek (rb : EhRingbuf) (offset len : Int) : Except Fault (Option Peek) := do
  let held ← ehRingbufSize rb
  let size ← int32 (held - offset)
  if size < len then pure none
  else
    let r := toUint32 (rb.r + offset) % rb.size
    let readSizeFirstMax ← int32 ((rb.size : Int) - r)
    if len ≤ readSizeFirstMax then
      pure (some (.direct r (if size > readSizeFirstMax then readSizeFirstMax else size)))
    else
      let out ← copyOut rb.size rb.buf r len
      pure (some (.copied out))

/-- A negative `len` reaches `memcpy` as a huge `size_t`. -/
def ehRingbufPeekCopy (rb : EhRingbuf) (offset len : Int) :
    Except Fault (Int × List UInt8) := do
  let held ← ehRingbufSize rb
  let size ← int32 (held - offset)
  if size < len then pure (0, [])
  else if len < 0 then .error .outOfBounds
  else
    let r := toUint32 (rb.r + offset) % rb.size
    let out ← copyOut rb.size rb.buf r len
    pure (len, out)

def ehRingbufClear (rb : EhRingbuf) : EhRingbuf := { rb with r := rb.w }

def ehRingbufReset (rb : EhRingbuf) : EhRingbuf := { rb with r := 0, w := 0 }

end EventHub.Ringbuf
