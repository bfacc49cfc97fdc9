import EventHub.Library.Chain

/-! The heap of `eh_mem.c`. Memory is what the allocator sees of it: the block
headers by address. Words have 64 bits, and pointers are words. -/

namespace EventHub.Memory
open Library

/-- Arithmetic in `eh_size_t`. -/
def word (x : Nat) : Nat := x % 18446744073709551616

def minus (x y : Nat) : Nat := word (x + (18446744073709551616 - word y))

/-- The build-time alignment, `EH_CONFIG_MEM_ALLOC_ALIGN = 2 ^ shift`, and the
address of the static `first_block`. -/
structure Layout where
  shift : Nat
  shift_lt : shift < 64
  firstBlock : Nat
  firstBlock_pos : 0 < firstBlock
  firstBlock_end : firstBlock + 16 ≤ 2 ^ 64

namespace Layout

def alignSize (L : Layout) : Nat := 2 ^ L.shift

def alignMask (L : Layout) : Nat := L.alignSize - 1

/-- `addr & ~EH_MEM_ALIGN_MASK`. -/
def alignDown (L : Layout) (addr : Nat) : Nat :=
  addr &&& (18446744073709551615 - L.alignMask)

def alignUp (L : Layout) (addr : Nat) : Nat := L.alignDown (word (addr + L.alignMask))

/-- `EH_MEM_BLOCK_HEAD_SIZE`: two words, aligned. -/
def headSize (L : Layout) : Nat := L.alignUp 16

end Layout

structure EhMemBlock where
  next : Nat
  size : Nat
deriving DecidableEq, Repr

structure EhMemHeap where
  heapStart : Nat
  heapSize : Nat
deriving DecidableEq, Repr

/-- The memory and `_eh_mem_run`, whose `first_block` is the header at
`Layout.firstBlock`. -/
structure EhMemRun where
  block : Nat → EhMemBlock
  memTotalSize : Nat
  memFreeSize : Nat
  memUseBlockCnt : Nat
  memMinEverFreeSizeLevel : Nat

namespace EhMemRun

def next (s : EhMemRun) (p : Nat) : Nat := (s.block p).next

def size (s : EhMemRun) (p : Nat) : Nat := (s.block p).size

def setNext (s : EhMemRun) (p q : Nat) : EhMemRun :=
  { s with block := Function.update s.block p ⟨q, s.size p⟩ }

def setSize (s : EhMemRun) (p n : Nat) : EhMemRun :=
  { s with block := Function.update s.block p ⟨s.next p, n⟩ }

end EhMemRun

def addressSpace : Nat := 18446744073709551616

/-- `(uint8_t*)block + block->size + EH_MEM_BLOCK_HEAD_SIZE == (uint8_t*)next`. -/
def touches (L : Layout) (s : EhMemRun) (block next : Nat) : Prop :=
  word (block + s.size block + L.headSize) = next

instance (L : Layout) (s : EhMemRun) (block next : Nat) : Decidable (touches L s block next) :=
  inferInstanceAs (Decidable (_ = _))

/-- `block` takes over the space of its successor `next`. -/
def merge (L : Layout) (s : EhMemRun) (block next : Nat) : EhMemRun :=
  let s := s.setSize block (word (s.size block + word (s.size next + L.headSize)))
  let s := s.setNext block (s.next next)
  { s with memFreeSize := word (s.memFreeSize + L.headSize) }

/-- `newFreeBlock` between `prevBlock` and `posBlock`. -/
def link (s : EhMemRun) (prevBlock newFreeBlock posBlock : Nat) : EhMemRun :=
  let s := s.setNext prevBlock newFreeBlock
  let s := s.setNext newFreeBlock posBlock
  { s with memFreeSize := word (s.memFreeSize + s.size newFreeBlock) }

def ehMemInsert (L : Layout) (s : EhMemRun) (newFreeBlock : Nat) : Option EhMemRun := do
  let (prevBlock, posBlock) ← search s.next 0 (fun pos => pos < newFreeBlock) addressSpace
    L.firstBlock (s.next L.firstBlock)
  let s := link s prevBlock newFreeBlock posBlock
  let (s, newFreeBlock) :=
    if touches L s prevBlock newFreeBlock then (merge L s prevBlock newFreeBlock, prevBlock)
    else (s, newFreeBlock)
  let s := if touches L s newFreeBlock posBlock then merge L s newFreeBlock posBlock else s
  pure { s with memUseBlockCnt := minus s.memUseBlockCnt 1 }

/-- The pairs `(start, size)` passed to `dump_func`. -/
def dumpFrom (L : Layout) (s : EhMemRun) : Nat → Nat → Option (List (Nat × Nat))
  | 0, _ => none
  | fuel + 1, posBlock =>
    if posBlock = 0 then some []
    else do
      let rest ← dumpFrom L s fuel (s.next posBlock)
      pure ((posBlock, word (s.size posBlock + L.headSize)) :: rest)

def ehFreeBlockDump (L : Layout) (s : EhMemRun) : Option (List (Nat × Nat)) :=
  dumpFrom L s addressSpace (s.next L.firstBlock)

/-- The part of `newBlock` that `alignSize` leaves over, when it is worth a block. -/
def split (L : Layout) (s : EhMemRun) (newBlock alignSize : Nat) : EhMemRun :=
  let newFreeBlockSize := minus (minus (s.size newBlock) alignSize) L.headSize
  if newFreeBlockSize > L.alignSize ∧ s.size newBlock > newFreeBlockSize then
    let newFreeBlock := word (newBlock + alignSize + L.headSize)
    let s := s.setSize newFreeBlock newFreeBlockSize
    let s := s.setNext newFreeBlock (s.next newBlock)
    let s := s.setSize newBlock alignSize
    let s := s.setNext newBlock newFreeBlock
    { s with memFreeSize := word (s.memFreeSize + newFreeBlockSize) }
  else s

/-- The pointer returned, 0 for `NULL`, and the heap afterwards. -/
def ehMalloc (L : Layout) (s : EhMemRun) (size : Nat) : Option (Nat × EhMemRun) :=
  let alignSize := L.alignUp size
  if alignSize = 0 ∨ alignSize < size then some (0, s)
  else if s.memFreeSize < alignSize then some (0, s)
  else do
    let (prevBlock, posBlock) ← search s.next 0 (fun pos => s.size pos < alignSize) addressSpace
      L.firstBlock (s.next L.firstBlock)
    if posBlock = 0 then some (0, s)
    else
      let newBlock := posBlock
      let s := { s with memFreeSize := minus s.memFreeSize (s.size newBlock) }
      let s := split L s newBlock alignSize
      let s := if s.memFreeSize < s.memMinEverFreeSizeLevel then
          { s with memMinEverFreeSizeLevel := s.memFreeSize }
        else s
      let newMem := word (newBlock + L.headSize)
      let s := s.setNext prevBlock (s.next newBlock)
      some (newMem, { s with memUseBlockCnt := word (s.memUseBlockCnt + 1) })

def ehFree (L : Layout) (s : EhMemRun) (ptr : Nat) : Option EhMemRun :=
  let newFreeBlock := minus ptr L.headSize
  if ptr = 0 then some s else ehMemInsert L s newFreeBlock

def initRegion (L : Layout) (s : EhMemRun) (heap : EhMemHeap) : Option EhMemRun :=
  let block := L.alignUp heap.heapStart
  let stop := L.alignDown (word (heap.heapStart + heap.heapSize))
  let s := s.setNext block 0
  let s := s.setSize block (minus (minus stop block) L.headSize)
  ehMemInsert L s block

/-- The return value and the heap; without a region only the counters are cleared. -/
def ehMemInit (L : Layout) (s : EhMemRun) (array : List EhMemHeap) :
    Option (Int × EhMemRun) :=
  let s := s.setNext L.firstBlock 0
  let s := s.setSize L.firstBlock 0
  let s := { s with memTotalSize := 0, memFreeSize := 0, memMinEverFreeSizeLevel := 0 }
  if array.length = 0 then some (-2, s)
  else do
    let s ← array.foldlM (initRegion L) s
    some (0, { s with
      memUseBlockCnt := 0
      memTotalSize := s.memFreeSize
      memMinEverFreeSizeLevel := s.memFreeSize })

end EventHub.Memory
