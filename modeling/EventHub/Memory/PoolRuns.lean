import EventHub.Memory.Pool

/-! Runs of a pool. Its free list is a stack of slots, the others are in use; and what belongs to
a slot, for `eh_mem_pool_free` and for `eh_mem_pool_ptr_to_idx`. -/

namespace EventHub.Memory
open Library

/-- The nodes from `head` on are linked in this order. -/
def LinkedNodes (next : Nat → Option Nat) : Option Nat → List Nat → Prop
  | head, [] => head = none
  | head, i :: rest => head = some i ∧ LinkedNodes next (next i) rest

theorem LinkedNodes.congr {next next' : Nat → Option Nat} {head : Option Nat} {free : List Nat}
    (h : LinkedNodes next head free) (same : ∀ i ∈ free, next' i = next i) :
    LinkedNodes next' head free := by
  induction free generalizing head with
  | nil => exact h
  | cons i rest ih =>
    obtain ⟨first, more⟩ := h
    refine ⟨first, ?_⟩
    rw [same i (by simp)]
    exact ih more fun j mem => same j (by simp [mem])

theorem LinkedNodes.ne_self {next : Nat → Option Nat} {head : Option Nat} {free : List Nat}
    (h : LinkedNodes next head free) (nodup : free.Nodup) {i : Nat} (mem : i ∈ free) :
    next i ≠ some i := by
  induction free generalizing head with
  | nil => cases mem
  | cons j rest ih =>
    obtain ⟨-, more⟩ := h
    obtain ⟨absent, nodup⟩ := List.nodup_cons.mp nodup
    rcases List.mem_cons.mp mem with rfl | mem
    · cases rest with
      | nil =>
        intro self
        rw [show next i = none from more] at self
        cases self
      | cons k rest =>
        intro self
        have eq : i = k := Option.some.inj (self.symm.trans more.1)
        exact absent (by simp [eq])
    · exact ih more nodup mem

namespace EhMemPool
variable {pool next : EhMemPool} {free : List Nat} {ptr i : Nat}

/-- The state of a pool with these free slots, the one that is given next first. -/
structure Stacked (pool : EhMemPool) (free : List Nat) : Prop where
  linked : LinkedNodes pool.freeList pool.freeListHead free
  nodup : free.Nodup
  range : ∀ i ∈ free, i < pool.num
  used : ∀ i < pool.num, i ∉ free → pool.freeList i = some i

structure Placed (pool : EhMemPool) : Prop where
  sized : 0 < pool.alignSize
  base : pool.base < 2 ^ 64
  inside : pool.base + pool.num * pool.alignSize < 2 ^ 64

theorem Stacked.idxIsUsed (h : pool.Stacked free) (lt : i < pool.num) :
    pool.idxIsUsed i = true ↔ i ∉ free := by
  rw [EhMemPool.idxIsUsed, decide_eq_true_eq]
  exact ⟨fun self mem => h.linked.ne_self h.nodup mem self, h.used i lt⟩

def slotOf (pool : EhMemPool) (ptr : Nat) : Option Nat :=
  if pool.base ≤ ptr ∧ ptr < pool.base + pool.num * pool.alignSize
  then some ((ptr - pool.base) / pool.alignSize) else none

def slotStart (pool : EhMemPool) (i : Nat) : Nat := pool.base + i * pool.alignSize

theorem slotOf_lt (h : pool.Placed) (at_ : pool.slotOf ptr = some i) : i < pool.num := by
  rw [slotOf] at at_
  split at at_
  · cases at_
    rw [Nat.div_lt_iff_lt_mul h.sized]
    omega
  · cases at_

theorem index_eq (h : pool.Placed) (word : ptr < 2 ^ 64) :
    ∃ q, pool.index ptr = .ok q ∧
      (∀ i, pool.slotOf ptr = some i ↔ q < pool.num ∧ q = i) := by
  have sized := h.sized
  refine ⟨_, if_neg (by omega), fun i => ?_⟩
  rw [slotOf]
  by_cases below : ptr < pool.base
  · have wraps : minus ptr pool.base = ptr + 2 ^ 64 - pool.base := by
      have base := h.base
      unfold minus Memory.word
      omega
    have beyond : pool.num ≤ minus ptr pool.base / pool.alignSize := by
      rw [Nat.le_div_iff_mul_le sized, wraps]
      have := h.inside
      omega
    rw [if_neg (by omega)]
    exact ⟨fun none => (Option.some_ne_none i none.symm).elim, fun both => absurd both.1 (by omega)⟩
  · rw [minus_of_le (by omega) word]
    by_cases inside : ptr < pool.base + pool.num * pool.alignSize
    · rw [if_pos ⟨by omega, inside⟩, Option.some.injEq]
      have lt : (ptr - pool.base) / pool.alignSize < pool.num := by
        rw [Nat.div_lt_iff_lt_mul sized]
        omega
      exact ⟨fun eq => ⟨lt, eq⟩, fun both => both.2⟩
    · have beyond : pool.num ≤ (ptr - pool.base) / pool.alignSize := by
        rw [Nat.le_div_iff_mul_le sized]
        omega
      rw [if_neg (fun both => inside both.2)]
      exact ⟨fun none => (Option.some_ne_none i none.symm).elim,
        fun both => absurd both.1 (by omega)⟩

theorem ehMemPoolFree_eq (h : pool.Placed) (word : ptr < 2 ^ 64) :
    pool.ehMemPoolFree ptr = .ok (match pool.slotOf ptr with
      | some i => if pool.idxIsUsed i then pool.push i else pool
      | none => pool) := by
  obtain ⟨q, index, slot⟩ := index_eq h word
  rw [ehMemPoolFree, index, ok_bind]
  cases at_ : pool.slotOf ptr with
  | none =>
    have beyond : pool.num ≤ q := by
      by_contra lt
      rw [(slot q).mpr ⟨by omega, rfl⟩] at at_
      cases at_
    rw [if_pos beyond]
    rfl
  | some i =>
    obtain ⟨lt, rfl⟩ := (slot i).mp at_
    rw [if_neg (by omega)]
    dsimp only
    cases used : pool.idxIsUsed q with
    | true => rfl
    | false => rfl

theorem Stacked.push (h : pool.Stacked free) (lt : i < pool.num) (out : i ∉ free) :
    (pool.push i).Stacked (i :: free) := by
  have elsewhere : ∀ j, j ≠ i → (pool.push i).freeList j = pool.freeList j := fun j ne =>
    Function.update_of_ne ne ..
  refine ⟨⟨rfl, ?_⟩, List.nodup_cons.mpr ⟨out, h.nodup⟩, fun j mem => ?_, fun j lt mem => ?_⟩
  · rw [show (pool.push i).freeList i = pool.freeListHead from Function.update_self ..]
    exact h.linked.congr fun j mem => elsewhere j fun eq => out (eq ▸ mem)
  · rcases List.mem_cons.mp mem with rfl | mem
    · exact lt
    · exact h.range j mem
  · rw [List.mem_cons, not_or] at mem
    rw [elsewhere j mem.1]
    exact h.used j lt mem.2

theorem slotStart_eq (h : pool.Placed) (lt : i < pool.num) :
    word (pool.base + word (i * pool.alignSize)) = pool.slotStart i := by
  have inside := h.inside
  have below : i * pool.alignSize ≤ pool.num * pool.alignSize :=
    Nat.mul_le_mul_right _ lt.le
  rw [word_of_lt (x := i * pool.alignSize) (by omega), word_of_lt (by omega), slotStart]

theorem slotStart_lt (h : pool.Placed) (lt : i < pool.num) :
    pool.slotStart i < pool.base + pool.num * pool.alignSize := by
  have below : (i + 1) * pool.alignSize ≤ pool.num * pool.alignSize :=
    Nat.mul_le_mul_right _ lt
  have sized := h.sized
  rw [Nat.succ_mul] at below
  unfold slotStart
  omega

theorem slotOf_slotStart (h : pool.Placed) (lt : i < pool.num) :
    pool.slotOf (pool.slotStart i) = some i := by
  have below := slotStart_lt h lt
  rw [slotOf, if_pos ⟨by unfold slotStart; omega, below⟩, slotStart, Nat.add_sub_cancel_left,
    Nat.mul_div_cancel _ h.sized]

theorem lt_two_pow (h : pool.Placed) (lt : i < pool.num) : i < 2 ^ 64 := by
  have inside := h.inside
  have : pool.num ≤ pool.num * pool.alignSize := Nat.le_mul_of_pos_right _ h.sized
  omega

theorem idxToPtr_eq (h : pool.Placed) (lt : i < pool.num) :
    pool.idxToPtr i = pool.slotStart i := by
  have small := lt_two_pow h lt
  have index : ((i : Int) % 18446744073709551616).toNat = i := by omega
  rw [idxToPtr, index, slotStart_eq h lt]

theorem Stacked.alloc (h : pool.Stacked free) (placed : pool.Placed) :
    pool.ehMemPoolAlloc.2 = free.head?.map pool.slotStart ∧
      pool.ehMemPoolAlloc.1.Stacked free.tail := by
  cases free with
  | nil =>
    rw [ehMemPoolAlloc, show pool.freeListHead = none from h.linked]
    exact ⟨rfl, h⟩
  | cons i rest =>
    obtain ⟨head, more⟩ := h.linked
    obtain ⟨absent, nodup⟩ := List.nodup_cons.mp h.nodup
    have lt := h.range i (by simp)
    have elsewhere : ∀ j, j ≠ i →
        Function.update pool.freeList i (some i) j = pool.freeList j := fun j ne =>
      Function.update_of_ne ne ..
    rw [ehMemPoolAlloc, head]
    dsimp only
    rw [if_neg (by omega), slotStart_eq placed lt]
    refine ⟨rfl, more.congr fun j mem => elsewhere j fun eq => absent (eq ▸ mem), nodup,
      fun j mem => h.range j (by simp [show j ∈ rest from mem]), fun j lt' out => ?_⟩
    dsimp only
    by_cases eq : j = i
    · rw [eq, Function.update_self]
    · rw [elsewhere j eq]
      exact h.used j lt' fun mem => (List.mem_cons.mp mem).elim eq out

theorem ehMemPoolPtrToIdx_eq (h : pool.Placed) (word : ptr < 2 ^ 64) :
    pool.ehMemPoolPtrToIdx ptr = .ok (match pool.slotOf ptr with
      | some i => if ptr = pool.slotStart i then toInt32 (toUint32 i) else -1
      | none => -1) := by
  have sized := h.sized
  have inside := h.inside
  rw [ehMemPoolPtrToIdx, slotOf, word_of_lt (x := pool.num * pool.alignSize) (by omega),
    word_of_lt (by omega)]
  by_cases within : pool.base ≤ ptr ∧ ptr < pool.base + pool.num * pool.alignSize
  · rw [if_neg (by omega), if_pos within, minus_of_le within.1 word]
    dsimp only
    rw [if_neg (show pool.alignSize ≠ 0 by omega)]
    have split := Nat.div_add_mod' (ptr - pool.base) pool.alignSize
    by_cases start : (ptr - pool.base) % pool.alignSize = 0
    · rw [if_neg (by omega), if_pos (by unfold slotStart; omega)]
    · rw [if_pos start, if_neg (by unfold slotStart; omega)]
  · rw [if_pos (by omega), if_neg within]

theorem SameSlots.placed (same : pool.SameSlots next) (h : pool.Placed) : next.Placed := by
  constructor
  · rw [same.alignSize]
    exact h.sized
  · rw [same.base]
    exact h.base
  · rw [same.base, same.num, same.alignSize]
    exact h.inside

theorem SameSlots.sound {align size addr : Nat} (same : pool.SameSlots next)
    (h : SoundPool align size addr pool) : SoundPool align size addr next := by
  have sized : pool.alignSize ≠ 0 := fun zero =>
    (h.divides [] pool [] rfl 0).1 ((free_divides pool 0).mpr zero)
  refine ⟨?_, ?_, ?_, ?_, fun ops last results run ptr => ?_⟩
  · rw [same.base]
    exact h.aligned
  · rw [same.base, same.num]
    exact h.behind
  · rw [same.base, same.num, same.alignSize]
    exact h.inside
  · rw [same.base, same.num, same.alignSize]
    exact h.disjoint
  · rw [← same.alignSize, ← (run_sameSlots run).alignSize] at sized
    exact ⟨fun stop => sized ((free_divides last ptr).mp stop),
      fun stop => sized (ptrToIdx_divides stop)⟩

theorem SameSlots.slotOf (same : pool.SameSlots next) : next.slotOf = pool.slotOf := by
  funext ptr
  rw [EhMemPool.slotOf, EhMemPool.slotOf, same.base, same.num, same.alignSize]

theorem SameSlots.slotStart (same : pool.SameSlots next) : next.slotStart = pool.slotStart := by
  funext i
  rw [EhMemPool.slotStart, EhMemPool.slotStart, same.base, same.alignSize]

/-! A pool is a stack of free slots: the slot that was freed last is given next. -/

def slotsStep (pool : EhMemPool) (free : List Nat) : PoolOp → List Nat × Option Nat
  | .alloc => (free.tail, free.head?.map pool.slotStart)
  | .free ptr =>
    match pool.slotOf ptr with
    | some i => (if i ∈ free then free else i :: free, none)
    | none => (free, none)

def slotsRun (pool : EhMemPool) (free : List Nat) : List PoolOp → List Nat × List (Option Nat)
  | [] => (free, [])
  | op :: ops =>
    let (next, result) := pool.slotsStep free op
    let (last, results) := pool.slotsRun next ops
    (last, result :: results)

def Words (ops : List PoolOp) : Prop := ∀ ptr, .free ptr ∈ ops → ptr < 2 ^ 64

variable {op : PoolOp} {ops : List PoolOp}

theorem Stacked.step (h : pool.Stacked free) (placed : pool.Placed) (words : Words [op]) :
    ∃ next, pool.step op = .ok (next, (pool.slotsStep free op).2) ∧
      next.Stacked (pool.slotsStep free op).1 := by
  cases op with
  | alloc =>
    obtain ⟨result, stacked⟩ := h.alloc placed
    refine ⟨pool.ehMemPoolAlloc.1, ?_, stacked⟩
    rw [EhMemPool.step, slotsStep, ← result]
  | free ptr =>
    rw [EhMemPool.step, ehMemPoolFree_eq placed (words ptr (by simp)), slotsStep]
    cases at_ : pool.slotOf ptr with
    | none => exact ⟨pool, rfl, h⟩
    | some i =>
      have used := h.idxIsUsed (slotOf_lt placed at_)
      dsimp only
      by_cases mem : i ∈ free
      · rw [if_neg fun out => used.mp out mem, if_pos mem]
        exact ⟨pool, rfl, h⟩
      · rw [if_pos (used.mpr mem), if_neg mem]
        exact ⟨pool.push i, rfl, h.push (slotOf_lt placed at_) mem⟩

theorem SameSlots.slotsStep (same : pool.SameSlots next) : next.slotsStep = pool.slotsStep := by
  funext free op
  cases op with
  | alloc => rw [EhMemPool.slotsStep, EhMemPool.slotsStep, same.slotStart]
  | free ptr => rw [EhMemPool.slotsStep, EhMemPool.slotsStep, same.slotOf]

theorem SameSlots.slotsRun (same : pool.SameSlots next) : next.slotsRun = pool.slotsRun := by
  funext free ops
  induction ops generalizing free with
  | nil => rfl
  | cons op ops ih =>
    rw [EhMemPool.slotsRun, EhMemPool.slotsRun, same.slotsStep]
    simp only [ih]

theorem Stacked.run (h : pool.Stacked free) (placed : pool.Placed) (words : Words ops) :
    ∃ last, pool.run ops = .ok (last, (pool.slotsRun free ops).2) ∧
      last.Stacked (pool.slotsRun free ops).1 := by
  induction ops generalizing pool free with
  | nil => exact ⟨pool, rfl, h⟩
  | cons op ops ih =>
    have word : Words [op] := fun ptr mem => words ptr (by simp [List.mem_singleton.mp mem])
    obtain ⟨next, step, stacked⟩ := h.step placed word
    have same := step_sameSlots step
    obtain ⟨last, run, final⟩ := ih stacked (same.placed placed) fun ptr mem =>
      words ptr (by simp [mem])
    rw [same.slotsRun] at run final
    refine ⟨last, ?_, final⟩
    rw [EhMemPool.run, step]
    dsimp only
    rw [run]
    rfl

/-! `eh_mem_pool_free` rounds an address down to its slot, `eh_mem_pool_ptr_to_idx` knows only the
first address of a slot and gives its index as an `int`. -/

/-- `eh_mem_pool_free` frees exactly the slot that `eh_mem_pool_ptr_to_idx` finds. -/
def Agrees (pool : EhMemPool) (ptr : Nat) : Prop :=
  ∃ next idx, pool.ehMemPoolFree ptr = .ok next ∧ pool.ehMemPoolPtrToIdx ptr = .ok idx ∧
    (next ≠ pool ↔ 0 ≤ idx ∧ pool.idxIsUsed idx.toNat = true) ∧
    (next ≠ pool → next = pool.push idx.toNat)

/-- The address is in a slot `i` in use and not its first, or `i` does not fit an `int`. -/
def Misjudged (pool : EhMemPool) (ptr : Nat) : Prop :=
  ∃ i, pool.slotOf ptr = some i ∧
    (ptr ≠ pool.slotStart i ∧ pool.idxIsUsed i = true ∨
      ptr = pool.slotStart i ∧ 2 ^ 31 ≤ i ∧
        (pool.idxIsUsed i = true ∨ i % 2 ^ 32 < 2 ^ 31 ∧ pool.idxIsUsed (i % 2 ^ 32) = true))

theorem Stacked.push_ne (h : pool.Stacked free) (lt : i < pool.num)
    (used : pool.idxIsUsed i = true) : pool.push i ≠ pool := by
  intro same
  have head : pool.freeListHead = some i := (congrArg freeListHead same).symm
  have linked := h.linked
  cases free with
  | nil =>
    rw [show pool.freeListHead = none from linked] at head
    cases head
  | cons j rest =>
    obtain rfl : j = i := Option.some.inj (linked.1.symm.trans head)
    exact (h.idxIsUsed lt).mp used (by simp)

theorem agrees_outside (h : pool.Placed) (word : ptr < 2 ^ 64) (at_ : pool.slotOf ptr = none) :
    pool.Agrees ptr := by
  refine ⟨pool, -1, ?_, ?_, ?_, fun changed => (changed rfl).elim⟩
  · rw [ehMemPoolFree_eq h word, at_]
  · rw [ehMemPoolPtrToIdx_eq h word, at_]
  · exact ⟨fun changed => (changed rfl).elim, fun found => absurd found.1 (by decide)⟩

theorem Stacked.agrees_used {idx : Int} (h : pool.Stacked free) (placed : pool.Placed)
    (word : ptr < 2 ^ 64) (at_ : pool.slotOf ptr = some i) (used : pool.idxIsUsed i = true)
    (finds : pool.ehMemPoolPtrToIdx ptr = .ok idx) : pool.Agrees ptr ↔ idx = i := by
  have frees : pool.ehMemPoolFree ptr = .ok (pool.push i) := by
    rw [ehMemPoolFree_eq placed word, at_]
    dsimp only
    rw [if_pos used]
  have changed := h.push_ne (slotOf_lt placed at_) used
  constructor
  · rintro ⟨next, idx', free', found, agree, only⟩
    obtain rfl := Except.ok.inj (frees.symm.trans free')
    obtain rfl := Except.ok.inj (finds.symm.trans found)
    have head : some i = some idx.toNat := congrArg freeListHead (only changed)
    have nonneg := (agree.mp changed).1
    have eq := Option.some.inj head
    omega
  · rintro rfl
    exact ⟨_, _, frees, finds, iff_of_true changed ⟨by omega, used⟩, fun _ => rfl⟩

theorem agrees_free {idx : Int} (placed : pool.Placed) (word : ptr < 2 ^ 64)
    (at_ : pool.slotOf ptr = some i) (out : ¬pool.idxIsUsed i = true)
    (finds : pool.ehMemPoolPtrToIdx ptr = .ok idx) :
    pool.Agrees ptr ↔ ¬(0 ≤ idx ∧ pool.idxIsUsed idx.toNat = true) := by
  have frees : pool.ehMemPoolFree ptr = .ok pool := by
    rw [ehMemPoolFree_eq placed word, at_]
    dsimp only
    rw [if_neg out]
  constructor
  · rintro ⟨next, idx', free', found, agree, -⟩ both
    obtain rfl := Except.ok.inj (frees.symm.trans free')
    obtain rfl := Except.ok.inj (finds.symm.trans found)
    exact agree.mpr both rfl
  · intro neither
    exact ⟨pool, idx, frees, finds, iff_of_false (fun changed => changed rfl) neither,
      fun changed => (changed rfl).elim⟩

theorem asInt_eq_iff : toInt32 (toUint32 i) = i ↔ i < 2 ^ 31 := by
  unfold toInt32 toUint32
  split <;> omega

theorem asInt_nonneg_iff : 0 ≤ toInt32 (toUint32 i) ↔ i % 2 ^ 32 < 2 ^ 31 := by
  unfold toInt32 toUint32
  split <;> omega

theorem asInt_toNat (low : i % 2 ^ 32 < 2 ^ 31) : (toInt32 (toUint32 i)).toNat = i % 2 ^ 32 := by
  unfold toInt32 toUint32
  split <;> omega

/-- Exactly where the two functions agree on what belongs to a pool. -/
theorem ehMemPoolFree_agrees_iff (pool : EhMemPool) (free : List Nat) (ptr : Nat)
    (h : pool.Stacked free) (placed : pool.Placed) (word : ptr < 2 ^ 64) :
    pool.Agrees ptr ↔ ¬pool.Misjudged ptr := by
  cases at_ : pool.slotOf ptr with
  | none =>
    refine iff_of_true (agrees_outside placed word at_) ?_
    rintro ⟨i, slot, -⟩
    rw [at_] at slot
    cases slot
  | some i =>
    have finds := ehMemPoolPtrToIdx_eq placed word
    rw [at_] at finds
    dsimp only at finds
    have this_slot : pool.Misjudged ptr ↔
        (ptr ≠ pool.slotStart i ∧ pool.idxIsUsed i = true ∨ ptr = pool.slotStart i ∧ 2 ^ 31 ≤ i ∧
          (pool.idxIsUsed i = true ∨
            i % 2 ^ 32 < 2 ^ 31 ∧ pool.idxIsUsed (i % 2 ^ 32) = true)) := by
      rw [Misjudged, at_]
      simp
    rw [this_slot]
    by_cases start : ptr = pool.slotStart i
    · rw [if_pos start] at finds
      by_cases used : pool.idxIsUsed i = true
      · rw [h.agrees_used placed word at_ used finds, asInt_eq_iff]
        simp [start, used]
      · rw [agrees_free placed word at_ used finds, asInt_nonneg_iff]
        by_cases low : i % 2 ^ 32 < 2 ^ 31
        · rw [asInt_toNat low]
          by_cases few : i < 2 ^ 31
          · rw [show i % 2 ^ 32 = i by omega]
            simp [start, used]
          · simp [-Nat.reducePow, start, used, low, show 2 ^ 31 ≤ i by omega]
        · simp [-Nat.reducePow, start, used, low]
    · rw [if_neg start] at finds
      by_cases used : pool.idxIsUsed i = true
      · rw [h.agrees_used placed word at_ used finds]
        exact iff_of_false (by omega) fun judged => judged (.inl ⟨start, used⟩)
      · rw [agrees_free placed word at_ used finds]
        simp [start, used]

def halfUsed : EhMemPool := ⟨4096, 16, 2, some 1, fun i => if i = 0 then some 0 else none⟩

theorem halfUsed_stacked : halfUsed.Stacked [1] := by
  refine ⟨⟨rfl, rfl⟩, List.pairwise_singleton _ 1, fun i mem => ?_, fun i lt out => ?_⟩
  · rw [List.mem_singleton.mp mem]
    exact Nat.one_lt_two
  · have zero : i = 0 := by
      rw [List.mem_singleton] at out
      change i < 2 at lt
      omega
    rw [zero]
    rfl

theorem halfUsed_placed : halfUsed.Placed := ⟨by decide, by decide, by decide⟩

/-- A pointer to the second byte of a slot in use frees the slot, which has no such address. -/
theorem ehMemPoolFree_disagrees :
    halfUsed.ehMemPoolFree 4097 = .ok (halfUsed.push 0) ∧
      halfUsed.ehMemPoolPtrToIdx 4097 = .ok (-1) ∧ ¬halfUsed.Agrees 4097 := by
  have slot : halfUsed.slotOf 4097 = some 0 := rfl
  have finds : halfUsed.ehMemPoolPtrToIdx 4097 = .ok (-1) := rfl
  refine ⟨rfl, finds, ?_⟩
  rw [halfUsed_stacked.agrees_used halfUsed_placed (by decide) slot rfl finds]
  decide

theorem ehMemPoolFree_agrees_iff_start : halfUsed.Agrees 4096 :=
  (ehMemPoolFree_agrees_iff halfUsed [1] 4096 halfUsed_stacked halfUsed_placed (by decide)).mpr (by
    rintro ⟨i, at_, judged⟩
    obtain rfl := Option.some.inj ((show halfUsed.slotOf 4096 = some 0 from rfl).symm.trans at_)
    exact absurd judged (by decide))

/-- What the functions give in a state of a pool of slots of `size` bytes, made in the memory at
`addr`; the slots that are not free are outstanding. -/
structure Contract (align size addr : Nat) (pool : EhMemPool) (free : List Nat) : Prop where
  once : free.Nodup
  full : pool.ehMemPoolAlloc.2 = none ↔ ∀ i < pool.num, i ∉ free
  given : ∀ ptr, pool.ehMemPoolAlloc.2 = some ptr → ∃ i < pool.num, free.head? = some i ∧
    ptr = pool.slotStart i ∧ align ∣ ptr ∧ addr ≤ ptr ∧
    ptr + size ≤ addr + allocationSize align size pool.num ∧
    ∀ j < pool.num, j ∉ free → ptr + size ≤ pool.slotStart j ∨ pool.slotStart j + size ≤ ptr
  kept : ∀ ptr < 2 ^ 64, (∀ i, pool.slotOf ptr = some i → i ∈ free) →
    pool.ehMemPoolFree ptr = .ok pool
  used : ∀ i < pool.num, pool.idxIsUsed i = true ↔ i ∉ free
  inverse : ∀ i < pool.num, pool.ehMemPoolPtrToIdx (pool.idxToPtr i) = .ok (i : Int)
  start : ∀ i < pool.num, ∃ idx, pool.ehMemPoolPtrToIdx (pool.slotStart i) = .ok idx ∧
    pool.idxToPtr idx = pool.slotStart i

theorem ptrToIdx_slotStart (h : pool.Placed) (lt : i < pool.num) :
    pool.ehMemPoolPtrToIdx (pool.slotStart i) = .ok (toInt32 (toUint32 i)) := by
  have below := slotStart_lt h lt
  have inside := h.inside
  rw [ehMemPoolPtrToIdx_eq h (by omega), slotOf_slotStart h lt]
  dsimp only
  rw [if_pos rfl]

theorem Stacked.contract {align size addr : Nat} (h : pool.Stacked free) (placed : pool.Placed)
    (sound : SoundPool align size addr pool) (dvd : align ∣ pool.alignSize)
    (sizes : size ≤ pool.alignSize) (few : pool.num ≤ 2 ^ 31) : Contract align size addr pool free := by
  have back : ∀ i < pool.num, pool.ehMemPoolPtrToIdx (pool.slotStart i) = .ok (i : Int) := by
    intro i lt
    rw [ptrToIdx_slotStart placed lt, toInt32_toUint32 (by omega) (by omega)]
  obtain ⟨result, -⟩ := h.alloc placed
  refine ⟨h.nodup, ?_, fun ptr gives => ?_, fun ptr word out => ?_, fun i lt => h.idxIsUsed lt,
    fun i lt => ?_, fun i lt => ⟨i, back i lt, idxToPtr_eq placed lt⟩⟩
  · rw [result, Option.map_eq_none_iff, List.head?_eq_none_iff]
    constructor
    · rintro rfl i _
      exact List.not_mem_nil
    · intro out
      by_contra some_free
      obtain ⟨i, mem⟩ := List.exists_mem_of_ne_nil free some_free
      exact out i (h.range i mem) mem
  · rw [result] at gives
    obtain ⟨i, head, rfl⟩ := Option.map_eq_some_iff.mp gives
    have mem : i ∈ free := List.mem_of_head? head
    have lt := h.range i mem
    have behind := sound.behind
    have inside := sound.inside
    have last := Nat.mul_le_mul_right pool.alignSize (show i + 1 ≤ pool.num from lt)
    rw [Nat.succ_mul] at last
    refine ⟨i, lt, head, rfl, Nat.dvd_add sound.aligned (dvd.mul_left i), ?_, ?_, fun j lt' out => ?_⟩
    · unfold slotStart
      omega
    · unfold slotStart
      omega
    · rcases Nat.lt_or_gt_of_ne (show i ≠ j from fun eq => out (eq ▸ mem)) with before | after
      · exact .inl (sound.disjoint i j before lt')
      · exact .inr (sound.disjoint j i after lt)
  · rw [ehMemPoolFree_eq placed word]
    cases at_ : pool.slotOf ptr with
    | none => rfl
    | some i =>
      have used := h.idxIsUsed (slotOf_lt placed at_)
      dsimp only
      rw [if_neg fun yes => used.mp yes (out i at_)]
  · rw [idxToPtr_eq placed lt, back i lt]

end EhMemPool

section Create
open EhMemPool
variable {k size num addr i : Nat} {freeList : Nat → Option Nat} {pool : EhMemPool}

theorem linkedNodes_range' {next : Nat → Option Nat} {count : Nat}
    (inner : ∀ j, i ≤ j → j < i + count → next j = some (j + 1)) (last : next (i + count) = none) :
    LinkedNodes next (some i) (List.range' i (count + 1)) := by
  induction count generalizing i with
  | zero => exact ⟨rfl, last⟩
  | succ count ih =>
    refine ⟨rfl, ?_⟩
    rw [inner i le_rfl (by omega)]
    refine ih (fun j le lt => inner j (by omega) (by omega)) ?_
    rw [← last]
    congr 1
    omega

theorem created_ok (hk : k < 64) (some_size : 0 < size) (some_num : 0 < num)
    (fits : exactSize (2 ^ k) size num < 2 ^ 64)
    (block : addr + allocationSize (2 ^ k) size num < 2 ^ 64)
    (created : ehMemPoolCreate (2 ^ k) size num (some ⟨addr, freeList⟩) = .ok (some pool)) :
    pool.Stacked (List.range num) ∧ pool.Placed ∧ pool.num = num ∧
      pool.alignSize = alignedUp size (2 ^ k) := by
  have sound := SoundPool.of_fits hk some_size some_num fits block.le created
  obtain ⟨-, run⟩ := @ehMemPoolCreate_fits k size num addr freeList hk some_size some_num fits
    block.le
  obtain rfl := Option.some.inj (Except.ok.inj (run.symm.trans created))
  have inside := sound.inside
  have slot := le_alignedUp size k
  dsimp only at inside
  refine ⟨⟨?_, List.nodup_range, fun i mem => List.mem_range.mp mem,
    fun i lt out => absurd (List.mem_range.mpr lt) out⟩, ⟨?_, ?_, ?_⟩, rfl, rfl⟩
  · obtain ⟨count, rfl⟩ : ∃ count, num = count + 1 := ⟨num - 1, by omega⟩
    rw [List.range_eq_range']
    refine linkedNodes_range' (fun j _ lt => if_pos (by omega)) ?_
    dsimp only
    rw [if_neg (by omega), if_pos (by omega)]
  · dsimp only
    omega
  · dsimp only
    omega
  · dsimp only
    omega

/-- Exactly when every run of a new pool keeps the contract: an index is returned as an `int`. -/
theorem ehMemPool_contract_iff (k size num addr : Nat) (freeList : Nat → Option Nat)
    (pool : EhMemPool) (hk : k < 64) (some_size : 0 < size) (some_num : 0 < num)
    (fits : exactSize (2 ^ k) size num < 2 ^ 64)
    (block : addr + allocationSize (2 ^ k) size num < 2 ^ 64)
    (created : ehMemPoolCreate (2 ^ k) size num (some ⟨addr, freeList⟩) = .ok (some pool)) :
    (∀ ops, Words ops → ∃ last, pool.run ops = .ok (last, (pool.slotsRun (List.range num) ops).2) ∧
      Contract (2 ^ k) size addr last (pool.slotsRun (List.range num) ops).1) ↔
    num ≤ 2 ^ 31 := by
  obtain ⟨stacked, placed, same_num, same_size⟩ :=
    created_ok hk some_size some_num fits block created
  have sound := SoundPool.of_fits hk some_size some_num fits block.le created
  constructor
  · intro contract
    by_contra many
    obtain ⟨last, run, at_end⟩ := contract [] fun ptr mem => (List.not_mem_nil mem).elim
    cases run
    have lt : 2 ^ 31 < pool.num := by omega
    have back := at_end.inverse (2 ^ 31) lt
    rw [idxToPtr_eq placed lt, ptrToIdx_slotStart placed lt] at back
    exact absurd (Except.ok.inj back) (by decide)
  · intro few ops words
    obtain ⟨last, run, final⟩ := stacked.run placed words
    have same := run_sameSlots run
    refine ⟨last, run, final.contract (same.placed placed) (same.sound sound) ?_ ?_ ?_⟩
    · rw [same.alignSize, same_size]
      exact dvd_alignedUp ..
    · rw [same.alignSize, same_size]
      exact le_alignedUp ..
    · rw [same.num, same_num]
      exact few

theorem ehMemPool_contract_iff_three : ∃ pool,
    ehMemPoolCreate (2 ^ 3) 20 3 (some ⟨4096, fun _ => none⟩) = .ok (some pool) ∧
      ∀ ops, Words ops → ∃ last,
        pool.run ops = .ok (last, (pool.slotsRun (List.range 3) ops).2) ∧
          Contract (2 ^ 3) 20 4096 last (pool.slotsRun (List.range 3) ops).1 :=
  ⟨_, rfl, (ehMemPool_contract_iff 3 20 3 4096 (fun _ => none) _ (by decide) (by decide)
    (by decide) (by decide) (by decide) rfl).mpr (by decide)⟩

/-- In a pool of 2^31 + 1 slots the index of the last slot comes back as a negative number. -/
theorem ehMemPool_contract_broken : ∃ pool,
    ehMemPoolCreate (2 ^ 0) 1 (2 ^ 31 + 1) (some ⟨4096, fun _ => none⟩) = .ok (some pool) ∧
      pool.ehMemPoolPtrToIdx (pool.idxToPtr 2147483648) = .ok (-2147483648) ∧
      ∀ free, ¬Contract (2 ^ 0) 1 4096 pool free := by
  obtain ⟨-, created⟩ := @ehMemPoolCreate_fits 0 1 (2 ^ 31 + 1) 4096 (fun _ => none)
    (by decide) (by decide) (by decide) (by decide) (by decide)
  obtain ⟨-, placed, same_num, -⟩ := created_ok (by decide) (by decide) (by decide) (by decide)
    (by decide) created
  have lt : 2147483648 < _ := same_num ▸ (show 2147483648 < 2 ^ 31 + 1 by decide)
  have back := ptrToIdx_slotStart placed lt
  rw [← idxToPtr_eq placed lt] at back
  refine ⟨_, created, back, fun free contract => ?_⟩
  have inverse := contract.inverse _ lt
  rw [back] at inverse
  exact absurd (Except.ok.inj inverse) (by decide)

end Create

end EventHub.Memory
