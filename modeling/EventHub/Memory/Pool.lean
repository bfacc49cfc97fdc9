import EventHub.Library.Machine
import EventHub.Memory.Align
import Mathlib.Logic.Function.Basic

/-! The memory pools of `eh_mem_pool.c`. A pointer to a node of the free list is its index there;
other pointers are addresses. A slot that is in use has a node that points to itself. -/

namespace EventHub.Memory
open Library

inductive PoolFault where
  | outOfBounds
  | divisionByZero
deriving DecidableEq

/-- `struct eh_mem_pool`, of 32 bytes, with the nodes of 8 bytes behind it. -/
structure EhMemPool where
  base : Nat
  alignSize : Nat
  num : Nat
  freeListHead : Option Nat
  freeList : Nat → Option Nat

/-- What `eh_malloc` gives: an address, where the nodes hold anything. -/
structure Allocated where
  addr : Nat
  freeList : Nat → Option Nat

def ehAlignUp (x align : Nat) : Nat :=
  word (x + minus align 1) &&& (18446744073709551615 - minus align 1)

/-- The argument of `eh_malloc` in `eh_mem_pool_create`. -/
def allocationSize (align size num : Nat) : Nat :=
  word (32 + word (num * 8) + word (word (ehAlignUp size align * num) + minus align 1))

/-- The loop of `eh_mem_pool_create` from `i` on, with `count` iterations left, and the end of the
list behind it. -/
def linkFreeList (num : Nat) (freeList : Nat → Option Nat) (i : Nat) :
    Nat → Except PoolFault (Nat → Option Nat)
  | 0 =>
    if i < num then .ok (Function.update freeList i none) else .error .outOfBounds
  | count + 1 =>
    if i < num then linkFreeList num (Function.update freeList i (some (i + 1))) (i + 1) count
    else .error .outOfBounds

/-- `eh_mem_pool_create`; `none` is the error `EH_RET_MALLOC_ERROR`. -/
def ehMemPoolCreate (align size num : Nat) (mem : Option Allocated) :
    Except PoolFault (Option EhMemPool) :=
  match mem with
  | none => .ok none
  | some block =>
    (linkFreeList num block.freeList 0 (minus num 1)).map fun freeList => some
      { base := ehAlignUp (word (block.addr + 32 + word (num * 8))) align
        alignSize := ehAlignUp size align
        num := num
        freeListHead := some 0
        freeList := freeList }

namespace EhMemPool

/-- `eh_mem_pool_idx_is_used`. -/
def idxIsUsed (pool : EhMemPool) (idx : Nat) : Bool := pool.freeList idx = some idx

/-- `eh_mem_pool_idx_to_ptr`, of an index of any integer type. -/
def idxToPtr (pool : EhMemPool) (idx : Int) : Nat :=
  word (pool.base + word ((idx % 18446744073709551616).toNat * pool.alignSize))

/-- `eh_mem_pool_alloc`; `none` is `NULL`. -/
def ehMemPoolAlloc (pool : EhMemPool) : EhMemPool × Option Nat :=
  match pool.freeListHead with
  | none => (pool, none)
  | some index =>
    if index ≥ pool.num then (pool, none)
    else
      ({ pool with
          freeListHead := pool.freeList index
          freeList := Function.update pool.freeList index (some index) },
        some (word (pool.base + word (index * pool.alignSize))))

/-- The `index` of `eh_mem_pool_free`. -/
def index (pool : EhMemPool) (ptr : Nat) : Except PoolFault Nat :=
  if pool.alignSize = 0 then .error .divisionByZero
  else .ok (minus ptr pool.base / pool.alignSize)

def push (pool : EhMemPool) (index : Nat) : EhMemPool :=
  { pool with
    freeListHead := some index
    freeList := Function.update pool.freeList index pool.freeListHead }

def ehMemPoolFree (pool : EhMemPool) (ptr : Nat) : Except PoolFault EhMemPool := do
  let index ← pool.index ptr
  if index ≥ pool.num then pure pool
  else if pool.idxIsUsed index = false then pure pool
  else pure (pool.push index)

def ehMemPoolPtrToIdx (pool : EhMemPool) (ptr : Nat) : Except PoolFault Int :=
  if ptr < pool.base ∨ ptr ≥ word (pool.base + word (pool.num * pool.alignSize)) then .ok (-1)
  else
    let offset := minus ptr pool.base
    if pool.alignSize = 0 then .error .divisionByZero
    else if offset % pool.alignSize ≠ 0 then .ok (-1)
    else .ok (toInt32 (toUint32 (offset / pool.alignSize : Nat)))

end EhMemPool

inductive PoolOp where
  | alloc
  | free (ptr : Nat)
deriving DecidableEq

def EhMemPool.step (pool : EhMemPool) : PoolOp → Except PoolFault (EhMemPool × Option Nat)
  | .alloc => .ok pool.ehMemPoolAlloc
  | .free ptr => (pool.ehMemPoolFree ptr).map (·, none)

def EhMemPool.run (pool : EhMemPool) :
    List PoolOp → Except PoolFault (EhMemPool × List (Option Nat))
  | [] => .ok (pool, [])
  | op :: ops =>
    match pool.step op with
    | .error e => .error e
    | .ok (next, result) => (next.run ops).map fun (last, results) => (last, result :: results)

/-! The geometry of a pool. -/

/-- `x`, rounded up without a wrap. -/
def alignedUp (x align : Nat) : Nat := (x + (align - 1)) / align * align

/-- The size that `eh_mem_pool_create` asks for, where nothing wraps. -/
def exactSize (align size num : Nat) : Nat :=
  32 + num * 8 + alignedUp size align * num + (align - 1)

section Align
variable {k x size num addr : Nat}

theorem le_alignedUp (x k : Nat) : x ≤ alignedUp x (2 ^ k) := by
  have pos : 0 < 2 ^ k := Nat.two_pow_pos k
  have := Nat.lt_div_mul_add (a := x + (2 ^ k - 1)) pos
  unfold alignedUp
  omega

theorem alignedUp_le (x k : Nat) : alignedUp x (2 ^ k) ≤ x + (2 ^ k - 1) := Nat.div_mul_le_self ..

theorem dvd_alignedUp (x align : Nat) : align ∣ alignedUp x align := Nat.dvd_mul_left ..

theorem minus_one (hk : k < 64) : minus (2 ^ k) 1 = 2 ^ k - 1 :=
  minus_of_le Nat.one_le_two_pow (Nat.pow_lt_pow_right (by decide) hk)

theorem ehAlignUp_eq_div (hk : k < 64) :
    ehAlignUp x (2 ^ k) = word (x + (2 ^ k - 1)) / 2 ^ k * 2 ^ k := by
  let L : Layout := ⟨k, hk, 1, by decide, by decide⟩
  rw [ehAlignUp, minus_one hk]
  exact Layout.alignDown_eq (L := L) (word_lt _)

theorem ehAlignUp_eq (hk : k < 64) (fits : x + (2 ^ k - 1) < 2 ^ 64) :
    ehAlignUp x (2 ^ k) = alignedUp x (2 ^ k) := by
  rw [ehAlignUp_eq_div hk, word_of_lt fits, alignedUp]

theorem ehAlignUp_wraps (hk : k < 64) (lt : x < 2 ^ 64) (wraps : 2 ^ 64 ≤ x + (2 ^ k - 1)) :
    ehAlignUp x (2 ^ k) = 0 := by
  have pos : 0 < 2 ^ k := Nat.two_pow_pos k
  have small : word (x + (2 ^ k - 1)) < 2 ^ k := by
    have bound : 2 ^ k < 2 ^ 64 := Nat.pow_lt_pow_right (by decide) hk
    generalize 2 ^ k = m at wraps pos bound ⊢
    unfold word
    omega
  rw [ehAlignUp_eq_div hk, Nat.div_eq_of_lt small, Nat.zero_mul]

theorem allocationSize_eq (hk : k < 64) (size num : Nat) :
    allocationSize (2 ^ k) size num =
      word (32 + num * 8 + ehAlignUp size (2 ^ k) * num + (2 ^ k - 1)) := by
  rw [allocationSize, minus_one hk]
  generalize ehAlignUp size (2 ^ k) * num = slots
  generalize 2 ^ k - 1 = mask
  unfold word
  omega

end Align

theorem linkFreeList_ok {num i count : Nat} (freeList : Nat → Option Nat)
    (inside : i + count < num) :
    linkFreeList num freeList i count = .ok fun j =>
      if i ≤ j ∧ j < i + count then some (j + 1) else if j = i + count then none
      else freeList j := by
  induction count generalizing i freeList with
  | zero =>
    rw [linkFreeList, if_pos (by omega)]
    refine congrArg Except.ok (funext fun j => ?_)
    rw [Function.update_apply]
    split_ifs <;> first | rfl | omega
  | succ count ih =>
    rw [linkFreeList, if_pos (by omega), ih _ (by omega)]
    refine congrArg Except.ok (funext fun j => ?_)
    rw [Function.update_apply]
    by_cases first : j = i
    · rw [if_neg (by omega), if_neg (by omega), if_pos first, if_pos (by omega), first]
    · by_cases inner : i + 1 ≤ j ∧ j < i + 1 + count
      · rw [if_pos inner, if_pos (by omega)]
      · rw [if_neg inner, if_neg first, show i + 1 + count = i + (count + 1) by omega,
          if_neg (show ¬(i ≤ j ∧ j < i + (count + 1)) by omega)]

namespace EhMemPool
variable {pool next : EhMemPool} {op : PoolOp} {ops : List PoolOp}

structure SameSlots (pool next : EhMemPool) : Prop where
  base : next.base = pool.base
  alignSize : next.alignSize = pool.alignSize
  num : next.num = pool.num

theorem SameSlots.refl (pool : EhMemPool) : pool.SameSlots pool := ⟨rfl, rfl, rfl⟩

theorem SameSlots.trans {last : EhMemPool} (h : pool.SameSlots next) (h' : next.SameSlots last) :
    pool.SameSlots last :=
  ⟨h'.base.trans h.base, h'.alignSize.trans h.alignSize, h'.num.trans h.num⟩

theorem step_sameSlots {result : Option Nat} (step : pool.step op = .ok (next, result)) :
    pool.SameSlots next := by
  cases op with
  | alloc =>
    have same : next = pool.ehMemPoolAlloc.1 := (congrArg Prod.fst (Except.ok.inj step)).symm
    rw [same, ehMemPoolAlloc]
    split
    · exact .refl pool
    · split
      · exact .refl pool
      · exact ⟨rfl, rfl, rfl⟩
  | free ptr =>
    rw [EhMemPool.step, ehMemPoolFree] at step
    cases at_ : pool.index ptr with
    | error e =>
      rw [at_] at step
      cases step
    | ok i =>
      rw [at_, ok_bind] at step
      split at step
      · cases step
        exact .refl pool
      · split at step
        · cases step
          exact .refl pool
        · cases step
          exact ⟨rfl, rfl, rfl⟩

theorem run_sameSlots {results : List (Option Nat)} (run : pool.run ops = .ok (next, results)) :
    pool.SameSlots next := by
  induction ops generalizing pool results with
  | nil =>
    cases run
    exact .refl _
  | cons op ops ih =>
    rw [EhMemPool.run] at run
    cases step : pool.step op with
    | error e =>
      rw [step] at run
      cases run
    | ok pair =>
      simp only [step] at run
      cases more : pair.1.run ops with
      | error e =>
        rw [more] at run
        cases run
      | ok last =>
        rw [more] at run
        cases run
        exact (step_sameSlots step).trans (ih more)

theorem free_divides (pool : EhMemPool) (ptr : Nat) :
    pool.ehMemPoolFree ptr = .error .divisionByZero ↔ pool.alignSize = 0 := by
  rw [ehMemPoolFree, index]
  split
  · next zero => exact ⟨fun _ => zero, fun _ => rfl⟩
  · next sized =>
    refine ⟨fun stop => ?_, fun zero => absurd zero sized⟩
    rw [ok_bind] at stop
    split at stop
    · cases stop
    · split at stop <;> cases stop

theorem ptrToIdx_divides {ptr : Nat} (stop : pool.ehMemPoolPtrToIdx ptr = .error .divisionByZero) :
    pool.alignSize = 0 := by
  by_contra sized
  rw [ehMemPoolPtrToIdx, if_neg sized] at stop
  split at stop
  · cases stop
  · split at stop <;> cases stop

end EhMemPool

/-- The free list and the slots are in the memory that was obtained, one behind the other, and no
call divides by zero. -/
structure SoundPool (align size addr : Nat) (pool : EhMemPool) : Prop where
  aligned : align ∣ pool.base
  behind : addr + 32 + pool.num * 8 ≤ pool.base
  inside : pool.base + pool.num * pool.alignSize ≤ addr + allocationSize align size pool.num
  disjoint : ∀ i j, i < j → j < pool.num →
    pool.base + i * pool.alignSize + size ≤ pool.base + j * pool.alignSize
  divides : ∀ ops last results, pool.run ops = .ok (last, results) → ∀ ptr,
    last.ehMemPoolFree ptr ≠ .error .divisionByZero ∧
      last.ehMemPoolPtrToIdx ptr ≠ .error .divisionByZero

section Create
variable {k size num addr : Nat} {freeList : Nat → Option Nat}

theorem exactSize_fits (some_num : 0 < num)
    (fits : exactSize (2 ^ k) size num < 2 ^ 64) : size + (2 ^ k - 1) < 2 ^ 64 := by
  have le := le_alignedUp size k
  have mul := Nat.le_mul_of_pos_right (alignedUp size (2 ^ k)) some_num
  unfold exactSize at fits
  omega

theorem ehMemPoolCreate_fits (hk : k < 64) (some_size : 0 < size) (some_num : 0 < num)
    (fits : exactSize (2 ^ k) size num < 2 ^ 64)
    (block : addr + allocationSize (2 ^ k) size num ≤ 2 ^ 64) :
    allocationSize (2 ^ k) size num = exactSize (2 ^ k) size num ∧
      ehMemPoolCreate (2 ^ k) size num (some ⟨addr, freeList⟩) = .ok (some
        { base := alignedUp (addr + 32 + num * 8) (2 ^ k)
          alignSize := alignedUp size (2 ^ k)
          num := num
          freeListHead := some 0
          freeList := fun i =>
            if i < num - 1 then some (i + 1) else if i = num - 1 then none else freeList i }) := by
  have size_fits := exactSize_fits some_num fits
  have total : allocationSize (2 ^ k) size num = exactSize (2 ^ k) size num := by
    rw [allocationSize_eq hk, ehAlignUp_eq hk size_fits]
    exact word_of_lt fits
  have slot := Nat.lt_of_lt_of_le some_size (le_alignedUp size k)
  have slots := Nat.mul_pos slot some_num
  rw [total] at block
  unfold exactSize at block fits
  have nodes : word (addr + 32 + word (num * 8)) = addr + 32 + num * 8 := by
    rw [word_of_lt (x := num * 8) (by omega), word_of_lt (by omega)]
  refine ⟨total, ?_⟩
  rw [ehMemPoolCreate]
  dsimp only
  rw [minus_of_le (by omega) (by omega), linkFreeList_ok _ (by omega), nodes,
    ehAlignUp_eq hk (by omega), ehAlignUp_eq hk size_fits]
  refine congrArg (fun list => Except.ok (some (EhMemPool.mk _ _ num (some 0) list)))
    (funext fun i => ?_)
  rw [Nat.zero_add]
  simp

theorem SoundPool.fits {pool : EhMemPool} (hk : k < 64) (small : size < 2 ^ 64)
    (created : ehMemPoolCreate (2 ^ k) size num (some ⟨addr, freeList⟩) = .ok (some pool))
    (sound : SoundPool (2 ^ k) size addr pool) :
    0 < size ∧ 0 < num ∧ exactSize (2 ^ k) size num < 2 ^ 64 := by
  have mask : 2 ^ k < 2 ^ 64 := Nat.pow_lt_pow_right (by decide) hk
  have pos : 0 < 2 ^ k := Nat.two_pow_pos k
  rw [ehMemPoolCreate] at created
  dsimp only at created
  have slots : 0 < num := by
    by_contra none
    obtain rfl : num = 0 := by omega
    rw [show minus 0 1 = 18446744073709551614 + 1 from rfl, linkFreeList, if_neg (by decide)]
      at created
    cases created
  cases links : linkFreeList num freeList 0 (minus num 1) with
  | error e =>
    rw [links] at created
    cases created
  | ok list =>
    rw [links] at created
    obtain rfl := Option.some.inj (Except.ok.inj created)
    have sized : ehAlignUp size (2 ^ k) ≠ 0 := fun zero =>
      (sound.divides [] _ _ rfl 0).1 ((EhMemPool.free_divides _ 0).mpr zero)
    have bytes : 0 < size := by
      by_contra none
      obtain rfl : size = 0 := by omega
      rw [ehAlignUp_eq hk (by omega), alignedUp, Nat.div_eq_of_lt (by omega), Nat.zero_mul] at sized
      exact sized rfl
    have size_fits : size + (2 ^ k - 1) < 2 ^ 64 := by
      by_contra wraps
      exact sized (ehAlignUp_wraps hk small (by omega))
    refine ⟨bytes, slots, ?_⟩
    by_contra wraps
    have behind := sound.behind
    have inside := sound.inside
    dsimp only at behind inside
    generalize ehAlignUp (word (addr + 32 + word (num * 8))) (2 ^ k) = base at behind inside
    rw [allocationSize_eq hk, ehAlignUp_eq hk size_fits,
      Nat.mul_comm num (alignedUp size (2 ^ k))] at inside
    unfold exactSize at wraps
    unfold word at inside
    omega

theorem SoundPool.of_fits {pool : EhMemPool} (hk : k < 64) (some_size : 0 < size)
    (some_num : 0 < num) (fits : exactSize (2 ^ k) size num < 2 ^ 64)
    (block : addr + allocationSize (2 ^ k) size num ≤ 2 ^ 64)
    (created : ehMemPoolCreate (2 ^ k) size num (some ⟨addr, freeList⟩) = .ok (some pool)) :
    SoundPool (2 ^ k) size addr pool := by
  obtain ⟨total, run⟩ := @ehMemPoolCreate_fits k size num addr freeList hk some_size some_num fits
    block
  obtain rfl := Option.some.inj (Except.ok.inj (run.symm.trans created))
  have lower := le_alignedUp (addr + 32 + num * 8) k
  have upper := alignedUp_le (addr + 32 + num * 8) k
  have slot := le_alignedUp size k
  refine ⟨dvd_alignedUp .., lower, ?_, fun i j lt _ => ?_, fun ops last results ran ptr => ?_⟩
  · dsimp only
    rw [total, exactSize, Nat.mul_comm num (alignedUp size (2 ^ k))]
    omega
  · dsimp only
    have next := Nat.mul_le_mul_right (alignedUp size (2 ^ k)) (show i + 1 ≤ j from lt)
    rw [Nat.succ_mul] at next
    omega
  · have same := (EhMemPool.run_sameSlots ran).alignSize
    have sized : last.alignSize ≠ 0 := by
      rw [same]
      dsimp only
      omega
    exact ⟨fun stop => sized ((EhMemPool.free_divides last ptr).mp stop),
      fun stop => sized (EhMemPool.ptrToIdx_divides stop)⟩

/-- Without slots the loop runs out of the list; with slots of no size the first call of
`eh_mem_pool_free` divides by zero. -/
theorem ehMemPoolCreate_broken :
    ehMemPoolCreate 8 16 0 (some ⟨4096, fun _ => none⟩) = .error .outOfBounds ∧
      ∃ pool, ehMemPoolCreate 8 0 4 (some ⟨4096, fun _ => none⟩) = .ok (some pool) ∧
        pool.ehMemPoolFree pool.base = .error .divisionByZero ∧ ¬SoundPool 8 0 4096 pool := by
  have created : ehMemPoolCreate (2 ^ 3) 0 4 (some ⟨4096, fun _ => none⟩) = .ok (some _) := rfl
  exact ⟨rfl, _, created, rfl, fun sound => absurd
    (SoundPool.fits (k := 3) (by decide) (by decide) created sound).1 (by decide)⟩

/-- Exactly when `eh_mem_pool_create` makes a sound pool in the memory that it obtains. -/
theorem ehMemPoolCreate_sound_iff (k size num addr : Nat) (freeList : Nat → Option Nat)
    (hk : k < 64) (small : size < 2 ^ 64)
    (block : addr + allocationSize (2 ^ k) size num ≤ 2 ^ 64) :
    (∃ pool, ehMemPoolCreate (2 ^ k) size num (some ⟨addr, freeList⟩) = .ok (some pool) ∧
      SoundPool (2 ^ k) size addr pool) ↔
    0 < size ∧ 0 < num ∧ exactSize (2 ^ k) size num < 2 ^ 64 := by
  constructor
  · rintro ⟨pool, created, sound⟩
    exact sound.fits hk small created
  · rintro ⟨some_size, some_num, fits⟩
    obtain ⟨-, run⟩ := ehMemPoolCreate_fits hk some_size some_num fits block
    exact ⟨_, run, .of_fits hk some_size some_num fits block run⟩

theorem ehMemPoolCreate_sound_iff_three : ∃ pool,
    ehMemPoolCreate (2 ^ 3) 20 3 (some ⟨4096, fun _ => none⟩) = .ok (some pool) ∧
      SoundPool (2 ^ 3) 20 4096 pool :=
  (ehMemPoolCreate_sound_iff 3 20 3 4096 (fun _ => none) (by decide) (by decide) (by decide)).mpr
    (by decide)

end Create

end EventHub.Memory
