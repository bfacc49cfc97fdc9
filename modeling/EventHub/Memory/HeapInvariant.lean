import EventHub.Library.Transition
import EventHub.Memory.Alloc

/-! Runs of the allocator and the invariant of its heap. A run records the pointers
that are handed out and not freed, and `mem_free_size` after each call; owners may
store into their bytes between calls. -/

namespace EventHub.Memory
open Library

def Layout.region (L : Layout) (h : EhMemHeap) : Span Nat :=
  ⟨L.alignUp h.heapStart, L.alignDown (h.heapStart + h.heapSize)⟩

def heapCells (L : Layout) (array : List EhMemHeap) : Set Nat :=
  {x | ∃ h ∈ array, x ∈ (L.region h).cells}

/-- Regions of memory of their own, each with room for a header after aligning, none
right behind the static `first_block`. -/
structure Usable (L : Layout) (array : List EhMemHeap) : Prop where
  memory : ∀ h ∈ array, 0 < h.heapStart ∧ h.heapStart + h.heapSize < 2 ^ 64
  room : ∀ h ∈ array, h.heapStart ≤ (L.region h).lo ∧
    (L.region h).lo + L.headSize ≤ (L.region h).hi
  disjoint : array.Pairwise fun h k =>
    h.heapStart + h.heapSize ≤ k.heapStart ∨ k.heapStart + k.heapSize ≤ h.heapStart
  static : ∀ h ∈ array, L.firstBlock + 16 ≤ h.heapStart ∨
    h.heapStart + h.heapSize ≤ L.firstBlock
  follows : ∀ h ∈ array, (L.region h).lo ≠ L.firstBlock + L.headSize

namespace Usable
variable {L : Layout} {array : List EhMemHeap} {h : EhMemHeap} {x : Nat}

theorem region_hi (usable : Usable L array) (mem : h ∈ array) :
    (L.region h).hi ≤ h.heapStart + h.heapSize :=
  L.alignDown_le (usable.memory h mem).2

theorem pos (usable : Usable L array) (inside : x ∈ heapCells L array) : 0 < x := by
  obtain ⟨h, mem, lo, -⟩ := inside
  have := usable.memory h mem
  have := usable.room h mem
  omega

theorem succ_lt (usable : Usable L array) (inside : x ∈ heapCells L array) :
    x + 1 < 2 ^ 64 := by
  obtain ⟨h, mem, -, hi⟩ := inside
  have := usable.memory h mem
  have := usable.region_hi mem
  omega

theorem ne_firstBlock (usable : Usable L array) (inside : x ∈ heapCells L array) :
    x ≠ L.firstBlock := by
  obtain ⟨h, mem, lo, hi⟩ := inside
  have := usable.static h mem
  have := usable.room h mem
  have := usable.region_hi mem
  omega

/-- No aligned address of the heap is where a block behind `first_block` would be. -/
theorem ne_behind (usable : Usable L array) (inside : x ∈ heapCells L array)
    (aligned : L.alignSize ∣ x) : word (L.firstBlock + L.headSize) ≠ x := by
  intro same
  have positive := usable.pos inside
  obtain ⟨h, mem, lo, hi⟩ := inside
  have room := usable.room h mem
  have static := usable.static h mem
  have follows := usable.follows h mem
  have stop := usable.region_hi mem
  have first := L.firstBlock_end
  have head := L.headSize_lt
  have dvdHead := L.dvd_headSize
  have dvdLo : L.alignSize ∣ (L.region h).lo := L.dvd_alignUp
  by_cases wraps : L.firstBlock + L.headSize < 2 ^ 64
  · rw [word_of_lt wraps] at same
    have gap : L.alignSize ∣ (L.region h).lo - L.firstBlock :=
      Nat.dvd_sub dvdLo ((Nat.dvd_add_left dvdHead).mp (same ▸ aligned))
    have := L.headSize_le gap (by omega)
    omega
  · have value : x = L.firstBlock + L.headSize - 2 ^ 64 := by
      rw [← same]
      unfold word
      omega
    have dvdSum : L.alignSize ∣ L.firstBlock + L.headSize := by
      have := Nat.dvd_add aligned L.alignSize_dvd
      rwa [value, Nat.sub_add_cancel (Nat.le_of_not_lt wraps)] at this
    have gap : L.alignSize ∣ 2 ^ 64 - L.firstBlock :=
      Nat.dvd_sub L.alignSize_dvd ((Nat.dvd_add_left dvdHead).mp dvdSum)
    have := L.headSize_le gap (by omega)
    omega

end Usable

/-- The heap with free list `free` and allocated blocks `live`. -/
structure Tidy (L : Layout) (array : List EhMemHeap) (s : EhMemRun)
    (free live : List Block) : Prop where
  linked : Linked L s free
  apart : Apart L free
  tiles : Tiles (heapCells L array) (free.map (Block.span L) ++ live.map (Block.span L))
  aligned : ∀ b ∈ free ++ live, L.alignSize ∣ b.addr ∧ L.alignSize ∣ b.size

theorem Block.addr_mem_span (L : Layout) (b : Block) : b.addr ∈ (b.span L).cells :=
  ⟨le_refl _, addr_lt_stop⟩

theorem Usable.stop_lt {L : Layout} {array : List EhMemHeap} {b : Block}
    (usable : Usable L array) (sub : (b.span L).cells ⊆ heapCells L array) :
    b.stop L < 2 ^ 64 := by
  have positive : b.addr < b.stop L := addr_lt_stop
  have := usable.succ_lt (sub (show b.stop L - 1 ∈ _ from
    ⟨Nat.le_sub_one_of_lt positive, Nat.sub_one_lt_of_lt positive⟩))
  omega

section Tidy
variable {L : Layout} {array : List EhMemHeap} {s : EhMemRun} {free live : List Block}
  {b : Block}

theorem Linked.frame {t : EhMemRun} (h : Linked L s free)
    (same : ∀ y ∈ L.firstBlock :: free.map Block.addr, t.block y = s.block y)
    (size : t.memFreeSize = s.memFreeSize) : Linked L t free where
  path := h.path.congr fun y mem => by simp only [EhMemRun.next, same y mem]
  head_size := (congrArg EhMemBlock.size (same _ (by simp))).trans h.head_size
  sizes b mem := (congrArg EhMemBlock.size (same _ (by simp; grind))).trans (h.sizes b mem)
  ordered := h.ordered
  inside := h.inside
  free := size.trans h.free

theorem Coalesce.sum_le {bs cs : List Block} (h : Coalesce L bs cs) :
    (bs.map Block.size).sum ≤ (cs.map Block.size).sum := by
  induction h with
  | refl => exact le_refl _
  | join _ _ ih =>
    simp only [List.map_append, List.map_cons, List.sum_append, List.sum_cons, Block.join] at *
    omega

theorem Linked.insert (linked : Linked L s free) (apart : Apart L free)
    (usable : Usable L array) (size : s.size b.addr = b.size)
    (tiles : Tiles (heapCells L array)
      (b.span L :: (free.map (Block.span L) ++ live.map (Block.span L))))
    (aligned : ∀ c ∈ b :: (free ++ live), L.alignSize ∣ c.addr ∧ L.alignSize ∣ c.size) :
    ∃ s' cs, ehMemInsert L s b.addr = some s' ∧ Tidy L array s' cs live ∧
      Kept s s' (L.firstBlock :: b.addr :: free.map Block.addr) ∧
      s.memFreeSize ≤ s'.memFreeSize ∧
      (cs.map (Block.whole L)).sum = b.whole L + (free.map (Block.whole L)).sum ∧
      cs.length ≤ free.length + 1 := by
  have cells : (b.span L).cells ⊆ heapCells L array := tiles.subset (List.mem_cons_self ..)
  have start := cells (b.addr_mem_span L)
  have fits : ∀ a ∈ free, a.stop L ≤ b.addr ∨ b.stop L ≤ a.addr := fun a mem => by
    have apart := (List.pairwise_cons.mp tiles.disjoint).1 (a.span L)
      (by simp; exact .inl ⟨a, mem, rfl⟩)
    exact (Span.before_or_after apart addr_lt_stop addr_lt_stop).symm
  obtain ⟨l, r, s', cs, rfl, run, linked', apart', coalesce, kept⟩ :=
    ehMemInsert_spec linked apart size
      ⟨usable.pos start, usable.ne_firstBlock start, usable.stop_lt cells⟩ fits
      (usable.ne_behind start (aligned b (by simp)).1)
  have bytes := coalesce.whole_sum
  simp only [List.map_append, List.map_cons, List.sum_append, List.sum_cons, List.length_append,
    List.length_cons] at bytes
  refine ⟨s', cs, run, ⟨linked', apart', coalesce.tiles ?_, fun c mem => ?_⟩, kept, ?_, ?_, ?_⟩
  · refine tiles.perm ?_
    simp only [List.map_append, List.map_cons, List.append_assoc, List.cons_append]
    exact List.perm_middle.symm
  · rcases List.mem_append.mp mem with mem | mem
    · refine coalesce.aligned L.dvd_headSize (fun d mem => aligned d ?_) c mem
      simp only [List.mem_append, List.mem_cons] at mem ⊢
      tauto
    · exact aligned c (by simp [mem])
  · rw [linked.free, linked'.free]
    refine le_trans ?_ coalesce.sum_le
    simp only [List.map_append, List.map_cons, List.sum_append, List.sum_cons]
    omega
  · rw [bytes.1, List.map_append, List.sum_append]
    omega
  · rw [List.length_append]
    omega

theorem Usable.subset {most : List EhMemHeap} (usable : Usable L array)
    (sub : most.Sublist array) : Usable L most where
  memory h mem := usable.memory h (sub.subset mem)
  room h mem := usable.room h (sub.subset mem)
  disjoint := usable.disjoint.sublist sub
  static h mem := usable.static h (sub.subset mem)
  follows h mem := usable.follows h (sub.subset mem)

/-- The free blocks and their headers take up the regions, and there are not more of them
than regions. -/
structure Fills (L : Layout) (array : List EhMemHeap) (free : List Block) : Prop where
  bytes : (free.map (Block.whole L)).sum =
    (array.map fun h => (L.region h).hi - (L.region h).lo).sum
  few : free.length ≤ array.length

theorem initRegion_spec {done : List EhMemHeap} {h : EhMemHeap}
    (usable : Usable L (done ++ [h])) (tidy : Tidy L done s free []) (fills : Fills L done free) :
    ∃ s' cs, initRegion L s h = some s' ∧ Tidy L (done ++ [h]) s' cs [] ∧
      Fills L (done ++ [h]) cs := by
  have memory := usable.memory h (by simp)
  have room := usable.room h (by simp)
  have hi := usable.region_hi (h := h) (by simp)
  have head := L.headSize_lt
  let b : Block := ⟨(L.region h).lo, (L.region h).hi - (L.region h).lo - L.headSize⟩
  have span : b.span L = L.region h := by
    have stop : b.stop L = (L.region h).hi := by
      simp only [Block.stop, b]
      omega
    rw [Block.span, stop]
  have outside : Disjoint (b.span L).cells (heapCells L done) := by
    rw [span, Set.disjoint_left]
    rintro x ⟨lo, below⟩ ⟨k, mem, lo', below'⟩
    have := (List.pairwise_append.mp usable.disjoint).2.2 k mem h (by simp)
    have := usable.region_hi (h := k) (by simp [mem])
    have := usable.room k (by simp [mem])
    omega
  have cells : ∀ x, x ∈ (b.span L).cells ∪ heapCells L done ↔
      x ∈ heapCells L (done ++ [h]) := by
    intro x
    simp only [span, heapCells, Set.mem_union, Set.mem_ofPred_eq, List.mem_append,
      List.mem_singleton]
    grind
  obtain ⟨s₁, set⟩ : ∃ s₁, s₁ = (s.setNext b.addr 0).setSize b.addr b.size := ⟨_, rfl⟩
  have run : initRegion L s h = ehMemInsert L s₁ b.addr := by
    have size : minus (minus (L.alignDown (word (h.heapStart + h.heapSize)))
        (L.alignUp h.heapStart)) L.headSize = b.size := by
      rw [word_of_lt memory.2]
      simp only [Layout.region] at room hi
      rw [minus_of_le (x := L.alignDown _) (by omega) (by omega),
        minus_of_le (by omega) (by omega)]
      rfl
    rw [initRegion, size, set]
    rfl
  have sizeB : s₁.size b.addr = b.size := by simp [set]
  have start : b.addr ∈ heapCells L (done ++ [h]) := (cells _).mp (.inl (b.addr_mem_span L))
  have same : ∀ y ∈ L.firstBlock :: free.map Block.addr, s₁.block y = s.block y := by
    intro y mem
    have ne : y ≠ b.addr := by
      rintro rfl
      rcases List.mem_cons.mp mem with eq | mem
      · exact usable.ne_firstBlock start eq
      · obtain ⟨c, mem, eq⟩ := List.mem_map.mp mem
        refine Set.disjoint_left.mp outside (b.addr_mem_span L) ?_
        rw [← eq]
        exact tidy.tiles.subset (by simp; exact ⟨c, mem, rfl⟩) (c.addr_mem_span L)
    rw [set]
    simp [EhMemRun.setNext, EhMemRun.setSize, Function.update_of_ne ne]
  have linked : Linked L s₁ free := tidy.linked.frame same (by rw [set]; rfl)
  have tiles := (tidy.tiles.cons outside).congr cells
  obtain ⟨s', cs, inserted, tidy', -, -, bytes, few⟩ := linked.insert tidy.apart usable sizeB tiles (by
    simp only [List.append_nil, List.mem_cons, forall_eq_or_imp]
    refine ⟨⟨L.dvd_alignUp, ?_⟩, fun c mem => tidy.aligned c (by simp [mem])⟩
    refine Nat.dvd_sub (Nat.dvd_sub (L.dvd_alignDown memory.2) L.dvd_alignUp) L.dvd_headSize)
  have whole : b.whole L = (L.region h).hi - (L.region h).lo := by
    simp only [Block.whole, b]
    omega
  refine ⟨s', cs, run.trans inserted, tidy', ?_, ?_⟩
  · rw [bytes, whole, fills.bytes, List.map_append, List.sum_append, List.map_singleton,
      List.sum_singleton, Nat.add_comm]
  · rw [List.length_append]
    exact few.trans (Nat.add_le_add_right fills.few 1)

theorem initRegions_spec {done : List EhMemHeap} (rest : List EhMemHeap)
    (usable : Usable L (done ++ rest)) (tidy : Tidy L done s free []) (fills : Fills L done free) :
    ∃ s' cs, rest.foldlM (initRegion L) s = some s' ∧ Tidy L (done ++ rest) s' cs [] ∧
      Fills L (done ++ rest) cs := by
  induction rest generalizing done s free with
  | nil => exact ⟨s, free, rfl, by simpa using tidy, by simpa using fills⟩
  | cons h rest ih =>
    rw [List.append_cons] at usable ⊢
    obtain ⟨s₁, bs, first, tidy₁, fills₁⟩ :=
      initRegion_spec (usable.subset (List.sublist_append_left ..)) tidy fills
    obtain ⟨s', cs, run, filled⟩ := ih usable tidy₁ fills₁
    refine ⟨s', cs, ?_, filled⟩
    rw [List.foldlM_cons, first]
    exact run

theorem ehMemInit_spec (usable : Usable L array) (s : EhMemRun) :
    ∃ code s' cs, ehMemInit L s array = some (code, s') ∧ Tidy L array s' cs [] ∧
      Fills L array cs ∧ s'.memMinEverFreeSizeLevel = s'.memFreeSize := by
  let s₁ : EhMemRun := { (s.setNext L.firstBlock 0).setSize L.firstBlock 0 with
    memTotalSize := 0, memFreeSize := 0, memMinEverFreeSizeLevel := 0 }
  have next : s₁.next L.firstBlock = 0 :=
    (EhMemRun.setSize_next ..).trans (by rw [EhMemRun.setNext_next, if_pos rfl])
  have size : s₁.size L.firstBlock = 0 :=
    (EhMemRun.setSize_size ..).trans (if_pos rfl)
  have tidy : Tidy L [] s₁ [] [] :=
    ⟨⟨⟨rfl, next⟩, size, by simp, .nil, by simp, rfl⟩, .nil,
      Tiles.nil.congr (by simp [heapCells]), by simp⟩
  by_cases empty : array.length = 0
  · obtain rfl := List.length_eq_zero_iff.mp empty
    exact ⟨-2, s₁, [], rfl, tidy, ⟨rfl, le_refl _⟩, rfl⟩
  · obtain ⟨s', cs, run, tidy', fills⟩ :=
      initRegions_spec array (by simpa using usable) tidy ⟨rfl, le_refl _⟩
    have linked := tidy'.linked
    let s₂ := { s' with
      memUseBlockCnt := 0
      memTotalSize := s'.memFreeSize
      memMinEverFreeSizeLevel := s'.memFreeSize }
    have linked₂ : Linked L s₂ cs :=
      ⟨linked.path, linked.head_size, linked.sizes, linked.ordered, linked.inside, linked.free⟩
    refine ⟨0, s₂, cs, ?_, ⟨linked₂, tidy'.apart, tidy'.tiles, tidy'.aligned⟩, fills, rfl⟩
    rw [ehMemInit, if_neg empty, show array.foldlM (initRegion L) _ = some s' from run]
    rfl

end Tidy

/-- The heap, the pointers handed out and not freed, each with the size asked for,
and the values of `mem_free_size` so far. -/
structure System where
  heap : EhMemRun
  live : List (Nat × Nat)
  levels : List Nat

inductive Op
  | malloc (size : Nat)
  | free (ptr : Nat)
  | store (addr : Nat) (value : EhMemBlock)

/-- A size is a word, what is freed is allocated or `NULL`, and owners store only
into bytes they asked for. -/
def Op.Legal (s : System) : Op → Prop
  | malloc size => size < 2 ^ 64
  | free ptr => ptr = 0 ∨ ∃ e ∈ s.live, e.1 = ptr
  | store addr _ => ∃ e ∈ s.live, e.1 ≤ addr ∧ addr + 16 ≤ e.1 + e.2

def step (L : Layout) (s : System) : Op → Option System
  | .malloc size => do
    let (ptr, heap) ← ehMalloc L s.heap size
    pure ⟨heap, if ptr = 0 then s.live else (ptr, size) :: s.live,
      s.levels ++ [heap.memFreeSize]⟩
  | .free ptr => do
    let heap ← ehFree L s.heap ptr
    pure ⟨heap, s.live.eraseP fun e => e.1 = ptr, s.levels ++ [heap.memFreeSize]⟩
  | .store addr value =>
    some { s with heap := { s.heap with block := Function.update s.heap.block addr value } }

def start (heap : EhMemRun) : System := ⟨heap, [], [heap.memFreeSize]⟩

def Reach (L : Layout) (heap : EhMemRun) (ops : List Op) (s : System) : Prop :=
  Run (fun s op t => op.Legal s ∧ step L s op = some t) (start heap) ops s

def blocksOf (L : Layout) (heap : EhMemRun) (live : List (Nat × Nat)) : List Block :=
  live.map fun e => ⟨e.1 - L.headSize, heap.size (e.1 - L.headSize)⟩

def System.allocated (L : Layout) (s : System) : List Block := blocksOf L s.heap s.live

def System.usable (L : Layout) (s : System) (ptr : Nat) : Span Nat :=
  ⟨ptr, ptr + s.heap.size (ptr - L.headSize)⟩

structure Sound (L : Layout) (array : List EhMemHeap) (s : System) (free : List Block) :
    Prop where
  dump : ehFreeBlockDump L s.heap = some (free.map fun b => (b.addr, b.size + L.headSize))
  increasing : free.Pairwise fun a b => a.addr < b.addr
  coalesced : free.Pairwise fun a b => a.stop L ≠ b.addr
  tiles : Tiles (heapCells L array)
    (free.map (Block.span L) ++ (s.allocated L).map (Block.span L))
  aligned : ∀ b ∈ free ++ s.allocated L, L.alignSize ∣ b.size
  free_size : s.heap.memFreeSize = (free.map Block.size).sum
  least : s.heap.memMinEverFreeSizeLevel ∈ s.levels ∧
    ∀ level ∈ s.levels, s.heap.memMinEverFreeSizeLevel ≤ level
  results : ∀ e ∈ s.live, L.alignSize ∣ e.1 ∧ e.1 + e.2 ≤ (s.usable L e.1).hi
  no_overlap : s.live.Pairwise fun e f =>
    Disjoint (s.usable L e.1).cells (s.usable L f.1).cells

theorem dumpFrom_eq {L : Layout} {s : EhMemRun} {bs : List Block} {fuel p : Nat}
    (nodes : ∀ b ∈ bs, b.addr ≠ 0) (path : Path s.next p (bs.map Block.addr) 0)
    (sizes : ∀ b ∈ bs, word (s.size b.addr + L.headSize) = b.size + L.headSize)
    (enough : bs.length < fuel) :
    dumpFrom L s fuel p = some (bs.map fun b => (b.addr, b.size + L.headSize)) := by
  induction bs generalizing p fuel with
  | nil =>
    obtain ⟨fuel, rfl⟩ : ∃ k, fuel = k + 1 := ⟨fuel - 1, by simp at enough; omega⟩
    exact if_pos path
  | cons b bs ih =>
    obtain ⟨fuel, rfl⟩ : ∃ k, fuel = k + 1 := ⟨fuel - 1, by simp at enough; omega⟩
    obtain ⟨rfl, rest⟩ := path
    rw [dumpFrom, if_neg (nodes b (by simp)), ih (fun c mem => nodes c (by simp [mem])) rest
      (fun c mem => sizes c (by simp [mem])) (by simpa using enough)]
    simp [sizes b (by simp)]

theorem Linked.dump_eq {L : Layout} {s : EhMemRun} {bs : List Block} (h : Linked L s bs) :
    ehFreeBlockDump L s = some (bs.map fun b => (b.addr, b.size + L.headSize)) := by
  refine dumpFrom_eq ?_ h.path.2 (fun b mem => ?_) h.length_lt
  · exact fun b mem => (h.inside b mem).1.ne'
  · rw [h.sizes b mem, word_of_lt]
    have := h.inside b mem
    simp only [Block.stop] at this
    omega

structure Inv (L : Layout) (array : List EhMemHeap) (s : System) (free : List Block) :
    Prop where
  tidy : Tidy L array s.heap free (s.allocated L)
  entries : ∀ e ∈ s.live, L.headSize ≤ e.1 ∧ e.2 ≤ s.heap.size (e.1 - L.headSize)
  current : s.heap.memFreeSize ∈ s.levels
  least : s.heap.memMinEverFreeSizeLevel ∈ s.levels ∧
    ∀ level ∈ s.levels, s.heap.memMinEverFreeSizeLevel ≤ level

theorem blocksOf_congr {L : Layout} {s t : EhMemRun} {live : List (Nat × Nat)}
    (same : ∀ b ∈ blocksOf L s live, t.block b.addr = s.block b.addr) :
    blocksOf L t live = blocksOf L s live := by
  refine List.map_congr_left fun e mem => ?_
  have := same _ (List.mem_map_of_mem mem)
  simp only [EhMemRun.size, this]

theorem size_eq_of_blocksOf {L : Layout} {s t : EhMemRun} {live : List (Nat × Nat)}
    (same : blocksOf L t live = blocksOf L s live) :
    ∀ e ∈ live, t.size (e.1 - L.headSize) = s.size (e.1 - L.headSize) := fun e mem =>
  (Block.mk.inj (List.map_inj_left.mp same e mem)).2

namespace Inv
variable {L : Layout} {array : List EhMemHeap} {s : System} {free : List Block} {b d : Block}

theorem separate (h : Inv L array s free) (mem : b ∈ free) (mem' : d ∈ s.allocated L) :
    Disjoint (b.span L).cells (d.span L).cells :=
  (List.pairwise_append.mp h.tidy.tiles.disjoint).2.2 _ (List.mem_map_of_mem mem) _
    (List.mem_map_of_mem mem')

theorem cells_allocated (h : Inv L array s free) (mem : d ∈ s.allocated L) :
    (d.span L).cells ⊆ heapCells L array :=
  h.tidy.tiles.subset (List.mem_append_right _ (List.mem_map_of_mem mem))

theorem cells_free (h : Inv L array s free) (mem : b ∈ free) :
    (b.span L).cells ⊆ heapCells L array :=
  h.tidy.tiles.subset (List.mem_append_left _ (List.mem_map_of_mem mem))

theorem not_listed (h : Inv L array s free) (usable : Usable L array)
    (mem : d ∈ s.allocated L) : d.addr ∉ L.firstBlock :: free.map Block.addr := by
  intro listed
  rcases List.mem_cons.mp listed with eq | listed
  · exact usable.ne_firstBlock (h.cells_allocated mem (d.addr_mem_span L)) eq
  · obtain ⟨b, mem', eq⟩ := List.mem_map.mp listed
    refine Set.disjoint_left.mp (h.separate mem' mem) ?_ (d.addr_mem_span L)
    exact eq ▸ b.addr_mem_span L

theorem malloc_step (h : Inv L array s free) (usable : Usable L array) (n : Nat) :
    ∃ t cs, step L s (.malloc n) = some t ∧ Inv L array t cs ∧
      blocksOf L t.heap s.live = s.allocated L := by
  have clear : ∀ b ∈ free, ∀ y, b.addr ≤ y → y < b.stop L → y ≠ L.firstBlock :=
    fun b mem y lo hi => usable.ne_firstBlock (h.cells_free mem ⟨lo, hi⟩)
  rcases ehMalloc_spec (n := n) h.tidy.linked clear with run | ⟨a, heap, run, alloc⟩
  · refine ⟨⟨s.heap, s.live, s.levels ++ [s.heap.memFreeSize]⟩, free, ?_, ⟨h.tidy, h.entries,
      by simp, by simp [h.least.1], fun level mem => ?_⟩, rfl⟩
    · simp [step, run]
    · rcases List.mem_append.mp mem with mem | mem
      · exact h.least.2 level mem
      · rw [List.mem_singleton.mp mem]
        exact h.least.2 _ h.current
  · obtain ⟨l, b, r, cs, rfl, carve, addr, linked, kept⟩ := alloc.carve
    have head := L.sixteen_le_headSize
    have same : blocksOf L heap s.live = s.allocated L := by
      refine blocksOf_congr fun d mem => kept _ (h.not_listed usable mem) ?_
      rintro c inC eq
      refine Set.disjoint_left.mp (h.separate (b := b) (by simp) mem) ?_ (d.addr_mem_span L)
      exact eq ▸ carve.inside c inC
    let t : System := ⟨heap, (a.addr + L.headSize, n) :: s.live, s.levels ++ [heap.memFreeSize]⟩
    have allocated : t.allocated L = a :: s.allocated L := by
      simp only [System.allocated, t, blocksOf, List.map_cons, Nat.add_sub_cancel, alloc.header]
      exact congrArg _ same
    have sizeA : L.alignSize ∣ a.size := alloc.aligned.elim id fun mem =>
      (h.tidy.aligned a (List.mem_append_left _ mem)).2
    obtain ⟨alignedA, alignedC⟩ :=
      carve.aligned sizeA (h.tidy.aligned b (by simp))
    refine ⟨t, l ++ (cs ++ r), ?_, ⟨⟨linked, carve.apart h.tidy.apart, ?_, ?_⟩, ?_, ?_, ?_⟩,
      same⟩
    · have : a.addr + L.headSize ≠ 0 := by omega
      simp only [step, run, Option.bind_eq_bind, Option.bind_some, if_neg this]
      rfl
    · rw [allocated]
      exact carve.tiles h.tidy.tiles
    · rw [allocated]
      intro c mem
      have old := h.tidy.aligned c
      simp only [List.mem_append, List.mem_cons] at mem old
      rcases mem with (inL | inC | inR) | rfl | inLive
      · exact old (by tauto)
      · exact alignedC c inC
      · exact old (by tauto)
      · exact ⟨alignedA, sizeA⟩
      · exact old (by tauto)
    · simp only [t, List.mem_cons, forall_eq_or_imp, Nat.add_sub_cancel, alloc.header]
      refine ⟨⟨by omega, alloc.enough⟩, fun e mem => ?_⟩
      rw [size_eq_of_blocksOf same e mem]
      exact h.entries e mem
    · simp [t]
    · simp only [t, alloc.least, List.mem_append, List.mem_singleton]
      refine ⟨?_, ?_⟩
      · rcases min_choice s.heap.memMinEverFreeSizeLevel heap.memFreeSize with eq | eq <;> rw [eq]
        · exact .inl h.least.1
        · exact .inr rfl
      · rintro level (mem | rfl)
        · exact (Nat.min_le_left ..).trans (h.least.2 level mem)
        · exact Nat.min_le_right ..

theorem free_step (h : Inv L array s free) (usable : Usable L array) {ptr : Nat}
    (legal : (Op.free ptr).Legal s) :
    ∃ t cs, step L s (.free ptr) = some t ∧ Inv L array t cs ∧
      t.allocated L = blocksOf L s.heap t.live := by
  have head := L.sixteen_le_headSize
  by_cases null : ptr = 0
  · have none : s.live.eraseP (fun e => e.1 = ptr) = s.live := by
      refine List.eraseP_of_forall_not fun e mem eq => ?_
      have := (h.entries e mem).1
      simp only [decide_eq_true_eq] at eq
      omega
    have run : ehFree L s.heap ptr = some s.heap := if_pos null
    refine ⟨⟨s.heap, s.live, s.levels ++ [s.heap.memFreeSize]⟩, free, ?_, ⟨h.tidy, h.entries,
      by simp, by simp [h.least.1], fun level mem => ?_⟩, rfl⟩
    · simp [step, run, none]
    · rcases List.mem_append.mp mem with mem | mem
      · exact h.least.2 level mem
      · rw [List.mem_singleton.mp mem]
        exact h.least.2 _ h.current
  · obtain ⟨e, memE, eq⟩ := legal.resolve_left null
    obtain ⟨⟨p, n⟩, l₁, l₂, -, eq, split, erased⟩ :=
      List.exists_of_eraseP (p := fun e => decide (e.1 = ptr)) memE (decide_eq_true eq)
    obtain rfl : p = ptr := of_decide_eq_true eq
    have entry := h.entries (p, n) (by simp [split])
    let b : Block := ⟨p - L.headSize, s.heap.size (p - L.headSize)⟩
    have allocated : s.allocated L =
        blocksOf L s.heap l₁ ++ b :: blocksOf L s.heap l₂ := by
      simp [System.allocated, blocksOf, split, b]
    have addr : b.addr + L.headSize = p := Nat.sub_add_cancel entry.1
    have tiles : Tiles (heapCells L array) (b.span L :: (free.map (Block.span L) ++
        (blocksOf L s.heap (l₁ ++ l₂)).map (Block.span L))) := by
      refine h.tidy.tiles.perm ?_
      rw [allocated]
      simp only [blocksOf, List.map_append, List.map_cons, ← List.append_assoc]
      exact List.perm_middle
    have stop := usable.stop_lt (b := b) (tiles.subset (List.mem_cons_self ..))
    have place : minus p L.headSize = b.addr := by
      refine minus_of_le entry.1 ?_
      simp only [Block.stop] at stop
      omega
    obtain ⟨heap, cs, run, tidy, kept, more, -⟩ :=
      h.tidy.linked.insert h.tidy.apart usable (b := b) rfl tiles (by
        intro c mem
        refine h.tidy.aligned c ?_
        rw [allocated]
        simp only [blocksOf, List.map_append, List.mem_cons, List.mem_append] at mem ⊢
        tauto)
    have same : blocksOf L heap (l₁ ++ l₂) = blocksOf L s.heap (l₁ ++ l₂) := by
      refine blocksOf_congr fun d mem => kept.block _ fun listed => ?_
      have inLive : d ∈ s.allocated L := by
        rw [allocated]
        simp only [blocksOf, List.map_append, List.mem_append, List.mem_cons] at mem ⊢
        tauto
      rcases List.mem_cons.mp listed with eq | listed
      · exact h.not_listed usable inLive (by simp [eq])
      rcases List.mem_cons.mp listed with eq | listed
      · have apart := (List.pairwise_cons.mp tiles.disjoint).1 (d.span L)
          (List.mem_append_right _ (List.mem_map_of_mem mem))
        exact Set.disjoint_left.mp apart (b.addr_mem_span L) (eq ▸ d.addr_mem_span L)
      · exact h.not_listed usable inLive (List.mem_cons_of_mem _ listed)
    have below : s.heap.memMinEverFreeSizeLevel ≤ heap.memFreeSize :=
      (h.least.2 _ h.current).trans more
    refine ⟨⟨heap, l₁ ++ l₂, s.levels ++ [heap.memFreeSize]⟩, cs, ?_, ⟨?_, ?_, by simp, ?_⟩,
      same⟩
    · have run' : ehFree L s.heap p = some heap := by
        rw [ehFree, if_neg null, place, run]
      simp [step, run', erased]
    · rw [System.allocated, same]
      exact tidy
    · intro e mem
      rw [size_eq_of_blocksOf same e mem]
      refine h.entries e ?_
      rw [split]
      simp only [List.mem_append, List.mem_cons] at mem ⊢
      tauto
    · rw [kept.least]
      refine ⟨by simp [h.least.1], fun level mem => ?_⟩
      rcases List.mem_append.mp mem with mem | mem
      · exact h.least.2 level mem
      · rw [List.mem_singleton.mp mem]
        exact below

theorem store_step (h : Inv L array s free) (usable : Usable L array) {addr : Nat}
    {value : EhMemBlock} (legal : (Op.store addr value).Legal s) :
    ∃ t, step L s (.store addr value) = some t ∧ Inv L array t free := by
  obtain ⟨e, mem, lo, hi⟩ := legal
  have entry := h.entries e mem
  let d : Block := ⟨e.1 - L.headSize, s.heap.size (e.1 - L.headSize)⟩
  have memD : d ∈ s.allocated L := List.mem_map_of_mem mem
  have inside : addr ∈ (d.span L).cells := by
    simp only [Span.cells, Block.span, Block.stop, Set.mem_Ico, d]
    omega
  have tiles := h.tidy.tiles
  have payload : d.addr ≠ addr := by
    have := L.sixteen_le_headSize
    simp only [d]
    omega
  -- the stored cell is inside one tile and so no header of another
  have notHeader : ∀ c ∈ free ++ s.allocated L, c.addr ≠ addr := by
    rintro c memC rfl
    rw [← List.map_append] at tiles
    have same := tiles.eq_of_mem (List.mem_map_of_mem memC)
      (List.mem_map_of_mem (List.mem_append_right _ memD)) (c.addr_mem_span L) inside
    exact payload (Span.mk.inj same).1.symm
  have outside : addr ≠ L.firstBlock := usable.ne_firstBlock (h.cells_allocated memD inside)
  let heap : EhMemRun := { s.heap with block := Function.update s.heap.block addr value }
  have linked : Linked L heap free := by
    refine h.tidy.linked.frame (fun y listed => Function.update_of_ne ?_ ..) rfl
    rcases List.mem_cons.mp listed with rfl | listed
    · exact outside.symm
    · obtain ⟨c, memC, rfl⟩ := List.mem_map.mp listed
      exact notHeader c (List.mem_append_left _ memC)
  have same : blocksOf L heap s.live = s.allocated L := blocksOf_congr fun c memC =>
    Function.update_of_ne (notHeader c (List.mem_append_right _ memC)) ..
  refine ⟨⟨heap, s.live, s.levels⟩, rfl, ⟨linked, h.tidy.apart, ?_, ?_⟩, fun f memF => ?_,
    h.current, h.least⟩
  · rw [System.allocated, same]
    exact h.tidy.tiles
  · rw [System.allocated, same]
    exact h.tidy.aligned
  · rw [size_eq_of_blocksOf same f memF]
    exact h.entries f memF

theorem step_ok (h : Inv L array s free) (usable : Usable L array) {op : Op}
    (legal : op.Legal s) : ∃ t cs, step L s op = some t ∧ Inv L array t cs := by
  cases op with
  | malloc n =>
    obtain ⟨t, cs, run, inv, -⟩ := h.malloc_step usable n
    exact ⟨t, cs, run, inv⟩
  | free ptr =>
    obtain ⟨t, cs, run, inv, -⟩ := h.free_step usable legal
    exact ⟨t, cs, run, inv⟩
  | store addr value =>
    obtain ⟨t, run, inv⟩ := h.store_step usable legal
    exact ⟨t, free, run, inv⟩

theorem usable_subset (h : Inv L array s free) {e : Nat × Nat} (mem : e ∈ s.live) :
    (s.usable L e.1).cells ⊆
      (Block.span L ⟨e.1 - L.headSize, s.heap.size (e.1 - L.headSize)⟩).cells := by
  have := (h.entries e mem).1
  refine Set.Ico_subset_Ico (Nat.sub_le ..) ?_
  simp only [System.usable, Block.span, Block.stop]
  omega

theorem sound (h : Inv L array s free) : Sound L array s free where
  dump := h.tidy.linked.dump_eq
  increasing := h.tidy.apart.imp fun touch => addr_lt_stop.trans touch
  coalesced := h.tidy.apart.imp fun gap => gap.ne
  tiles := h.tidy.tiles
  aligned b mem := (h.tidy.aligned b mem).2
  free_size := h.tidy.linked.free
  least := h.least
  results e mem := by
    have entry := h.entries e mem
    have aligned := h.tidy.aligned ⟨e.1 - L.headSize, _⟩
      (List.mem_append_right _ (List.mem_map_of_mem mem))
    refine ⟨?_, Nat.add_le_add_left entry.2 _⟩
    rw [← Nat.sub_add_cancel entry.1]
    exact Nat.dvd_add aligned.1 L.dvd_headSize
  no_overlap := by
    have disjoint := (List.pairwise_append.mp h.tidy.tiles.disjoint).2.1
    simp only [System.allocated, blocksOf, List.map_map, List.pairwise_map] at disjoint
    refine disjoint.imp_of_mem fun memE memF apart => apart.mono ?_ ?_
    · exact h.usable_subset memE
    · exact h.usable_subset memF

end Inv

theorem ehMemInit_inv {L : Layout} {array : List EhMemHeap} (usable : Usable L array)
    (s₀ : EhMemRun) :
    ∃ code heap, ehMemInit L s₀ array = some (code, heap) ∧
      ∀ ops s, Reach L heap ops s → ∃ free, Inv L array s free := by
  obtain ⟨code, heap, cs, init, tidy, -, least⟩ := ehMemInit_spec usable s₀
  have inv : Inv L array (start heap) cs :=
    ⟨tidy, by simp [start], by simp [start], by simp [start, least]⟩
  refine ⟨code, heap, init, fun ops s reach => ?_⟩
  refine Run.invariant (I := fun s => ∃ free, Inv L array s free) ?_ reach ⟨cs, inv⟩
  rintro s op t ⟨free, inv⟩ ⟨legal, run⟩
  obtain ⟨t', cs, run', inv'⟩ := inv.step_ok usable legal
  exact ⟨cs, Option.some.inj (run'.symm.trans run) ▸ inv'⟩

/-- The heap after `eh_mem_init` and any sequence of calls: the free list is ordered
and coalesced, free and allocated blocks tile the regions, and no call gets lost in
the list. -/
theorem ehMem_invariant {L : Layout} {array : List EhMemHeap} (usable : Usable L array)
    (s₀ : EhMemRun) :
    ∃ code heap, ehMemInit L s₀ array = some (code, heap) ∧
      ∀ ops s, Reach L heap ops s → (∃ free, Sound L array s free) ∧
        ∀ op : Op, op.Legal s → ∃ t, step L s op = some t := by
  obtain ⟨code, heap, init, reach_inv⟩ := ehMemInit_inv usable s₀
  refine ⟨code, heap, init, fun ops s reach => ?_⟩
  obtain ⟨free, inv⟩ := reach_inv ops s reach
  refine ⟨⟨free, inv.sound⟩, fun op legal => ?_⟩
  obtain ⟨t, _, run, -⟩ := inv.step_ok usable legal
  exact ⟨t, run⟩

theorem ehMem_invariant_two :
    ∃ code heap, ehMemInit ⟨4, by decide, 4096, by decide, by decide⟩
        ⟨fun _ => ⟨0, 0⟩, 0, 0, 0, 0⟩ [⟨8200, 1000⟩, ⟨65536, 4096⟩] = some (code, heap) ∧
      ∀ ops s, Reach ⟨4, by decide, 4096, by decide, by decide⟩ heap ops s →
        (∃ free, Sound ⟨4, by decide, 4096, by decide, by decide⟩
          [⟨8200, 1000⟩, ⟨65536, 4096⟩] s free) ∧
        ∀ op : Op, op.Legal s →
          ∃ t, step ⟨4, by decide, 4096, by decide, by decide⟩ s op = some t :=
  ehMem_invariant ⟨by decide, by decide, by decide, by decide, by decide⟩ _

end EventHub.Memory
