import EventHub.Memory.Release

/-! Registration of heap regions, and the blocks that `eh_mem_init` makes of them. -/

namespace EventHub.Memory
open Library

/-- `EH_MEM_HEAP_ARRAY_NUM`. -/
def heapArrayNum : Nat := 8

/-- The return value and the array afterwards; `none` is a `NULL` argument. -/
def ehMemHeapRegister (L : Layout) (array : List EhMemHeap) :
    Option EhMemHeap → Int × List EhMemHeap
  | none => (-2, array)
  | some heap =>
    if heap.heapStart = 0 then (-2, array)
    else if ¬heap.heapSize > L.headSize then (-2, array)
    else if array.length ≥ heapArrayNum then (-4, array)
    else (0, array ++ [heap])

/-- The array after registering several regions, `first` being what it is built with. -/
def registerAll (L : Layout) (first heaps : List EhMemHeap) : List EhMemHeap :=
  heaps.foldl (fun array heap => (ehMemHeapRegister L array (some heap)).2) first

/-- The block that `eh_mem_init` makes of a region, with the size it computes. -/
def Layout.initialBlock (L : Layout) (h : EhMemHeap) : Block where
  addr := L.alignUp h.heapStart
  size := minus (minus (L.alignDown (word (h.heapStart + h.heapSize)))
    (L.alignUp h.heapStart)) L.headSize

structure Owned (L : Layout) (array : List EhMemHeap) : Prop where
  memory : ∀ h ∈ array, 0 < h.heapStart ∧ h.heapStart + h.heapSize < 2 ^ 64
  disjoint : array.Pairwise fun h k =>
    h.heapStart + h.heapSize ≤ k.heapStart ∨ k.heapStart + k.heapSize ≤ h.heapStart
  static : ∀ h ∈ array, L.firstBlock + 16 ≤ h.heapStart ∨
    h.heapStart + h.heapSize ≤ L.firstBlock
  follows : ∀ h ∈ array, (L.region h).lo ≠ L.firstBlock + L.headSize

def Contained (L : Layout) (h : EhMemHeap) : Prop :=
  h.heapStart ≤ (L.initialBlock h).addr ∧ (L.initialBlock h).stop L ≤ h.heapStart + h.heapSize

/-- `mem_free_size` is the sum of the payloads and of one header for each pair of blocks that
were joined, without wrapping. -/
def Accounted (L : Layout) (s₀ : EhMemRun) (array : List EhMemHeap) : Prop :=
  ∃ heap, ∃ free : List Block, ehMemInit L s₀ array = some (0, heap) ∧
    ehFreeBlockDump L heap = some (free.map fun b => (b.addr, b.size + L.headSize)) ∧
    free.length ≤ array.length ∧
    heap.memFreeSize = (array.map fun h => (L.initialBlock h).size).sum +
      (array.length - free.length) * L.headSize

def Roomy (L : Layout) (h : EhMemHeap) : Prop :=
  h.heapStart ≤ L.alignUp h.heapStart ∧
    L.alignUp h.heapStart + L.headSize ≤ L.alignDown (h.heapStart + h.heapSize)

section Register
variable {L : Layout} {array : List EhMemHeap} {h : EhMemHeap}

theorem initialBlock_size (fits : h.heapStart + h.heapSize < 2 ^ 64) (room : Roomy L h) :
    (L.initialBlock h).size + L.headSize = (L.region h).hi - (L.region h).lo := by
  have low := L.alignDown_le (x := h.heapStart + h.heapSize) fits
  have := room.2
  simp only [Layout.initialBlock, Layout.region]
  rw [word_of_lt fits, minus_of_le (x := L.alignDown _) (by omega) (by omega),
    minus_of_le (by omega) (by omega)]
  omega

/-- If the block had no room for its header, its size would wrap around and reach past the end
of memory. -/
theorem contained_iff (fits : h.heapStart + h.heapSize < 2 ^ 64) :
    Contained L h ↔ Roomy L h := by
  have low := L.alignDown_le (x := h.heapStart + h.heapSize) fits
  have start : L.alignUp h.heapStart < 2 ^ 64 := L.alignUp_lt
  have head := L.headSize_lt
  constructor
  · rintro ⟨lo, hi⟩
    refine ⟨lo, ?_⟩
    by_contra short
    simp only [Block.stop, Layout.initialBlock] at hi
    rw [word_of_lt fits] at hi
    unfold minus word at hi
    omega
  · intro room
    have size := initialBlock_size fits room
    have := room.2
    refine ⟨room.1, ?_⟩
    simp only [Block.stop, Layout.region] at size ⊢
    simp only [Layout.initialBlock] at size ⊢
    omega

theorem whole_sum_eq (bs : List Block) :
    (bs.map (Block.whole L)).sum = (bs.map Block.size).sum + bs.length * L.headSize := by
  induction bs with
  | nil => simp
  | cons b bs ih =>
    simp only [List.map_cons, List.sum_cons, List.length_cons, ih, Block.whole, Nat.succ_mul]
    omega

theorem regions_sum_eq (fits : ∀ h ∈ array, h.heapStart + h.heapSize < 2 ^ 64)
    (room : ∀ h ∈ array, Roomy L h) :
    (array.map fun h => (L.region h).hi - (L.region h).lo).sum =
      (array.map fun h => (L.initialBlock h).size).sum + array.length * L.headSize := by
  induction array with
  | nil => simp
  | cons h array ih =>
    have first := initialBlock_size (fits h (List.mem_cons_self ..)) (room h (List.mem_cons_self ..))
    have rest := ih (fun k mem => fits k (List.mem_cons_of_mem _ mem))
      fun k mem => room k (List.mem_cons_of_mem _ mem)
    simp only [List.map_cons, List.sum_cons, List.length_cons, rest, ← first, Nat.succ_mul]
    omega

theorem accounted (owned : Owned L array) (regions : array ≠ []) (room : ∀ h ∈ array, Roomy L h)
    (s₀ : EhMemRun) : Accounted L s₀ array := by
  have usable : Usable L array :=
    ⟨owned.memory, room, owned.disjoint, owned.static, owned.follows⟩
  obtain ⟨code, heap, cs, init, tidy, fills, least⟩ := ehMemInit_spec usable s₀
  obtain ⟨rfl, -⟩ := ehMemInit_counters regions init
  have inv : Inv L array (start heap) cs :=
    ⟨tidy, by simp [start], by simp [start], by simp [start, least]⟩
  refine ⟨heap, cs, init, inv.tidy.linked.dump_eq, fills.few, ?_⟩
  have bytes := fills.bytes
  rw [whole_sum_eq, regions_sum_eq (fun h mem => (owned.memory h mem).2) room,
    ← tidy.linked.free] at bytes
  obtain ⟨joined, split⟩ := Nat.exists_eq_add_of_le fills.few
  rw [split, Nat.add_sub_cancel_left]
  rw [split, Nat.add_mul] at bytes
  omega

end Register

/-- The regions that are registered yield blocks inside themselves exactly when each of them
has room for a header between its rounded ends. -/
theorem ehMemHeapRegister_inside_iff {L : Layout} {first heaps : List EhMemHeap}
    (owned : Owned L (registerAll L first heaps)) (regions : registerAll L first heaps ≠ [])
    (s₀ : EhMemRun) :
    ((∀ h ∈ registerAll L first heaps, Contained L h) ∧
      Accounted L s₀ (registerAll L first heaps)) ↔
    ∀ h ∈ registerAll L first heaps, Roomy L h := by
  have fits : ∀ h ∈ registerAll L first heaps, h.heapStart + h.heapSize < 2 ^ 64 :=
    fun h mem => (owned.memory h mem).2
  constructor
  · exact fun inside h mem => (contained_iff (fits h mem)).mp (inside.1 h mem)
  · exact fun room => ⟨fun h mem => (contained_iff (fits h mem)).mpr (room h mem),
      accounted owned regions room s₀⟩

def words : Layout := ⟨3, by decide, 4096, by decide, by decide⟩

theorem ehMemHeapRegister_inside_iff_two :
    (∀ h ∈ registerAll words [] [⟨8193, 100⟩, ⟨8300, 50⟩], Contained words h) ∧
      Accounted words ⟨fun _ => ⟨0, 0⟩, 0, 0, 0, 0⟩
        (registerAll words [] [⟨8193, 100⟩, ⟨8300, 50⟩]) := by
  have registered : registerAll words [] [⟨8193, 100⟩, ⟨8300, 50⟩] =
      [⟨8193, 100⟩, ⟨8300, 50⟩] := rfl
  refine (ehMemHeapRegister_inside_iff ⟨?_, ?_, ?_, ?_⟩ (by rw [registered]; exact nofun) _).mpr ?_
  all_goals rw [registered]
  · decide
  · decide
  · decide
  · decide
  · simp only [Roomy]
    decide

/-- A region of 17 bytes is accepted, but behind its rounded start there are 8 bytes. -/
theorem ehMemHeapRegister_size_wraps :
    ehMemHeapRegister words [] (some ⟨8193, 17⟩) = (0, [⟨8193, 17⟩]) ∧
    ¬((∀ h ∈ registerAll words [] [⟨8193, 17⟩], Contained words h) ∧
      Accounted words ⟨fun _ => ⟨0, 0⟩, 0, 0, 0, 0⟩ (registerAll words [] [⟨8193, 17⟩])) := by
  refine ⟨rfl, ?_⟩
  rintro ⟨inside, -⟩
  have wraps : (words.initialBlock ⟨8193, 17⟩).size = 18446744073709551608 := rfl
  obtain ⟨-, stop⟩ := inside ⟨8193, 17⟩ (List.mem_cons_self ..)
  rw [Block.stop, wraps] at stop
  dsimp only at stop
  omega

end EventHub.Memory
