import EventHub.Memory.HeapInvariant

/-! What `eh_malloc` decides, in unbounded arithmetic: a request fails only where no free block
has room for it, and else the first block with room is taken. -/

namespace EventHub.Memory
open Library

/-- The least multiple of the alignment from `size` on. -/
def Layout.roundUp (L : Layout) (size : Nat) : Nat :=
  (size + L.alignMask) / L.alignSize * L.alignSize

section RoundUp
variable {L : Layout} {n : Nat}

theorem Layout.le_roundUp : n ≤ L.roundUp n := by
  have pos := L.alignSize_pos
  have := Nat.lt_div_mul_add (a := n + L.alignMask) pos
  simp only [Layout.roundUp, Layout.alignMask] at *
  omega

theorem Layout.roundUp_le : L.roundUp n ≤ n + L.alignMask := Nat.div_mul_le_self ..

theorem Layout.alignUp_eq (fits : n + L.alignMask < 2 ^ 64) : L.alignUp n = L.roundUp n := by
  rw [Layout.alignUp, word_of_lt fits, Layout.alignDown_eq fits, Layout.roundUp]

theorem Layout.alignUp_wraps (lt : n < 2 ^ 64) (wraps : 2 ^ 64 ≤ n + L.alignMask) :
    L.alignUp n = 0 ∧ 2 ^ 64 ≤ L.roundUp n := by
  have pos := L.alignSize_pos
  have mask := L.alignMask_lt
  have rest : n + L.alignMask - 2 ^ 64 < L.alignSize := by
    simp only [Layout.alignMask] at *
    omega
  have wrapped : word (n + L.alignMask) = n + L.alignMask - 2 ^ 64 := by
    unfold word
    omega
  refine ⟨?_, ?_⟩
  · rw [Layout.alignUp, Layout.alignDown_eq (word_lt _), wrapped, Nat.div_eq_of_lt rest,
      Nat.zero_mul]
  · obtain ⟨k, eq⟩ := L.alignSize_dvd
    rw [Layout.roundUp, eq, Nat.mul_comm]
    refine Nat.mul_le_mul_right _ ((Nat.le_div_iff_mul_le pos).mpr ?_)
    rw [Nat.mul_comm, ← eq]
    exact wraps

theorem Layout.alignUp_fits_iff (lt : n < 2 ^ 64) :
    (L.alignUp n = 0 ∨ L.alignUp n < n) ↔ n = 0 ∨ 2 ^ 64 ≤ L.roundUp n := by
  by_cases fits : n + L.alignMask < 2 ^ 64
  · have zero : n = 0 → L.roundUp n = 0 := by
      have small : L.alignMask < L.alignSize := Nat.sub_one_lt L.alignSize_pos.ne'
      rintro rfl
      rw [Layout.roundUp, Nat.zero_add, Nat.div_eq_of_lt small, Nat.zero_mul]
    have lower := L.le_roundUp (n := n)
    have upper := L.roundUp_le (n := n)
    rw [Layout.alignUp_eq fits]
    omega
  · obtain ⟨zero, exceeds⟩ := Layout.alignUp_wraps lt (Nat.le_of_not_lt fits)
    simp only [zero, true_or, true_iff]
    exact .inr exceeds

theorem Layout.alignUp_eq_roundUp (lt : n < 2 ^ 64)
    (fits : ¬(L.alignUp n = 0 ∨ L.alignUp n < n)) : L.alignUp n = L.roundUp n := by
  refine Layout.alignUp_eq (Nat.lt_of_not_le fun wraps => fits ?_)
  exact .inl (Layout.alignUp_wraps lt wraps).1

end RoundUp

def Splits (L : Layout) (b : Block) (size : Nat) : Prop :=
  L.roundUp size + L.headSize + L.alignSize < b.size

instance (L : Layout) (b : Block) (size : Nat) : Decidable (Splits L b size) :=
  inferInstanceAs (Decidable (_ < _))

def Unserved (L : Layout) (free : List Block) (size : Nat) : Prop :=
  size = 0 ∨ 2 ^ 64 ≤ L.roundUp size ∨ ∀ b ∈ free, b.size < L.roundUp size

/-- The block `b` of the free list `l ++ b :: r` is handed out, whole or cut. -/
structure Serves (L : Layout) (l : List Block) (b : Block) (r : List Block) (size : Nat)
    (s' : EhMemRun) : Prop where
  cut : Splits L b size → s'.size b.addr = L.roundUp size ∧
    Linked L s' (l ++ ⟨b.addr + L.roundUp size + L.headSize,
      b.size - L.roundUp size - L.headSize⟩ :: r)
  whole : ¬ Splits L b size → s'.size b.addr = b.size ∧ Linked L s' (l ++ r)

section Linked
variable {L : Layout} {s : EhMemRun} {l r : List Block} {b : Block} {n : Nat}

theorem Linked.takeOut_serves (h : Linked L s (l ++ b :: r)) (lt : n < 2 ^ 64)
    (fits : ¬(L.alignUp n = 0 ∨ L.alignUp n < n)) (le : L.roundUp n ≤ b.size)
    (clear : ∀ y, b.addr ≤ y → y < b.stop L → y ≠ L.firstBlock) :
    Serves L l b r n (takeOut (split L { s with memFreeSize := minus s.memFreeSize b.size } b.addr
      (L.alignUp n)) (prevOf L l) b.addr) := by
  have round := Layout.alignUp_eq_roundUp lt fits
  obtain ⟨a, cs, carve, addr, -, linked, header, -⟩ := h.takeOut_split (round ▸ le) clear
  rw [round] at linked header ⊢
  have head := L.sixteen_le_headSize
  have inside := h.inside b (by simp)
  simp only [Block.stop] at inside
  -- the header says how much of the block is handed out
  have size : a.size = if Splits L b n then L.roundUp n else b.size := by
    have cut := split_eq (L := L) (p := b.addr) (n := L.roundUp n)
      (s := { s with memFreeSize := minus s.memFreeSize b.size })
    have same : ({ s with memFreeSize := minus s.memFreeSize b.size } : EhMemRun).size b.addr =
        b.size := h.sizes b (by simp)
    rw [same] at cut
    rw [← header, takeOut_size, addr, cut le (by omega) (by omega)]
    by_cases part : Splits L b n
    · rw [if_pos part]
      rw [Splits] at part
      rw [if_pos part]
      refine (EhMemRun.setNext_size ..).trans ?_
      rw [EhMemRun.setSize_size, if_pos rfl]
    · rw [if_neg part]
      rw [Splits] at part
      rw [if_neg part]
      exact same
  rw [addr] at header
  refine ⟨fun part => ?_, fun part => ?_⟩
  · rw [if_pos part] at size
    cases carve with
    | whole =>
      simp only [Splits] at part
      omega
    | @split k room =>
      obtain rfl : k = L.roundUp n := size
      exact ⟨header, linked⟩
  · rw [if_neg part] at size
    cases carve with
    | whole => exact ⟨header, linked⟩
    | @split k room =>
      obtain rfl : k = b.size := size
      omega

end Linked

structure FirstFit (L : Layout) (s : EhMemRun) (free : List Block) (size : Nat) : Prop where
  null : (∃ s', ehMalloc L s size = some (0, s')) ↔ Unserved L free size
  unchanged : ∀ s', ehMalloc L s size = some (0, s') → s' = s
  taken : ¬ Unserved L free size → ∃ l b r s', free = l ++ b :: r ∧
    L.roundUp size ≤ b.size ∧ (∀ c ∈ free, L.roundUp size ≤ c.size → b.addr ≤ c.addr) ∧
    ehMalloc L s size = some (b.addr + L.headSize, s') ∧ Serves L l b r size s'

theorem Linked.firstFit {L : Layout} {s : EhMemRun} {bs : List Block} {n : Nat}
    (h : Linked L s bs) (lt : n < 2 ^ 64)
    (clear : ∀ b ∈ bs, ∀ y, b.addr ≤ y → y < b.stop L → y ≠ L.firstBlock) :
    FirstFit L s bs n := by
  have fits_iff := L.alignUp_fits_iff lt
  have fails : Unserved L bs n → ehMalloc L s n = some (0, s) := by
    intro unserved
    by_cases fits : L.alignUp n = 0 ∨ L.alignUp n < n
    · exact h.ehMalloc_null (by tauto)
    · have round := L.alignUp_eq_roundUp lt fits
      rw [fits_iff] at fits
      refine h.ehMalloc_null (.inr (.inr ?_))
      rw [round]
      exact (or_assoc.mpr unserved).resolve_left fits
  have serves : ¬ Unserved L bs n → ∃ l b r s', bs = l ++ b :: r ∧
      L.roundUp n ≤ b.size ∧ (∀ c ∈ bs, L.roundUp n ≤ c.size → b.addr ≤ c.addr) ∧
      ehMalloc L s n = some (b.addr + L.headSize, s') ∧ Serves L l b r n s' := by
    intro served
    have fits : ¬(L.alignUp n = 0 ∨ L.alignUp n < n) := by
      rw [fits_iff]
      exact fun large => served (by rw [Unserved]; tauto)
    have round := L.alignUp_eq_roundUp lt fits
    obtain ⟨l, r, rfl, small, first⟩ := exists_first_fit (L.roundUp n) bs
    cases r with
    | nil => exact absurd (.inr (.inr (by simpa using small))) served
    | cons b r =>
      have le : L.roundUp n ≤ b.size := first b rfl
      refine ⟨l, b, r, _, rfl, le, fun c mem enough => ?_,
        h.ehMalloc_takes fits (round ▸ small) (round ▸ le),
        h.takeOut_serves lt fits le (clear b (by simp))⟩
      -- what lies before `b` is too small, and the list is ordered
      have after := (List.pairwise_append.mp h.ordered).2.1
      rcases List.mem_append.mp mem with before | behind
      · exact absurd enough (Nat.not_le_of_lt (small c before))
      · rcases List.mem_cons.mp behind with rfl | later
        · exact le_rfl
        · exact addr_lt_stop.le.trans ((List.pairwise_cons.mp after).1 c later)
  refine ⟨⟨?_, fun unserved => ⟨s, fails unserved⟩⟩, fun s' null => ?_, serves⟩
  · rintro ⟨s', null⟩
    by_contra served
    obtain ⟨l, b, r, t, -, -, -, run, -⟩ := serves served
    have head := L.sixteen_le_headSize
    have zero : b.addr + L.headSize = 0 := (Prod.mk.inj (Option.some.inj (run.symm.trans null))).1
    omega
  · by_cases unserved : Unserved L bs n
    · exact (Prod.mk.inj (Option.some.inj (null.symm.trans (fails unserved)))).2
    · obtain ⟨l, b, r, t, -, -, -, run, -⟩ := serves unserved
      have head := L.sixteen_le_headSize
      have zero : b.addr + L.headSize = 0 :=
        (Prod.mk.inj (Option.some.inj (run.symm.trans null))).1
      omega

/-- In every reachable heap an allocation fails, and changes nothing, exactly where the
request is empty, its rounding exceeds the size type or no free block has room for it; else
the first block with room is handed out and cut where the remainder is worth it. -/
theorem ehMalloc_first_fit {L : Layout} {array : List EhMemHeap} (usable : Usable L array)
    (s₀ : EhMemRun) :
    ∃ code heap, ehMemInit L s₀ array = some (code, heap) ∧
      ∀ ops s, Reach L heap ops s → ∃ free, Sound L array s free ∧
        ∀ size < 2 ^ 64, FirstFit L s.heap free size := by
  obtain ⟨code, heap, init, reach_inv⟩ := ehMemInit_inv usable s₀
  refine ⟨code, heap, init, fun ops s reach => ?_⟩
  obtain ⟨free, inv⟩ := reach_inv ops s reach
  refine ⟨free, inv.sound, fun size lt => inv.tidy.linked.firstFit lt ?_⟩
  exact fun b mem y lo hi => usable.ne_firstBlock (inv.cells_free mem ⟨lo, hi⟩)

theorem ehMalloc_first_fit_two :
    ∃ code heap, ehMemInit ⟨4, by decide, 4096, by decide, by decide⟩
        ⟨fun _ => ⟨0, 0⟩, 0, 0, 0, 0⟩ [⟨8200, 1000⟩, ⟨65536, 4096⟩] = some (code, heap) ∧
      ∀ ops s, Reach ⟨4, by decide, 4096, by decide, by decide⟩ heap ops s →
        ∃ free, Sound ⟨4, by decide, 4096, by decide, by decide⟩
            [⟨8200, 1000⟩, ⟨65536, 4096⟩] s free ∧
          ∀ size < 2 ^ 64, FirstFit ⟨4, by decide, 4096, by decide, by decide⟩ s.heap free size :=
  ehMalloc_first_fit ⟨by decide, by decide, by decide, by decide, by decide⟩ _

end EventHub.Memory
