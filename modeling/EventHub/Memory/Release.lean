import EventHub.Memory.HeapInvariant

/-! Freeing. The free list is what the allocated blocks leave over of the regions, so it
does not depend on the order in which blocks come back. -/

namespace EventHub.Memory
open Library

/-- `eh_free` of several pointers, one after the other. -/
def freeAll (L : Layout) (heap : EhMemRun) (ptrs : List Nat) : Option EhMemRun :=
  ptrs.foldlM (ehFree L) heap

/-- The same free list, addresses and sizes, and the same `mem_free_size`. -/
def SameFree (L : Layout) (heap heap' : EhMemRun) : Prop :=
  ∃ dump, ehFreeBlockDump L heap = some dump ∧ ehFreeBlockDump L heap' = some dump ∧
    heap.memFreeSize = heap'.memFreeSize

theorem Block.span_injective (L : Layout) : Function.Injective (Block.span L) := by
  rintro ⟨addr, size⟩ ⟨addr', size'⟩ same
  obtain ⟨rfl, ends⟩ := Span.mk.inj same
  exact congrArg _ (Nat.add_left_cancel (Nat.add_right_cancel ends))

section Canonical
variable {L : Layout} {array : List EhMemHeap} {s t : EhMemRun} {free free' live live' : List Block}

theorem Tidy.free_eq (h : Tidy L array s free live) (k : Tidy L array t free' live')
    (perm : live.Perm live') : free = free' := by
  have filled : ∀ bs : List Block, ∀ b ∈ bs.map (Block.span L), b.lo < b.hi := by
    intro bs
    rw [List.forall_mem_map]
    exact fun b _ => addr_lt_stop
  refine List.map_injective_iff.mpr (Block.span_injective L)
    (Span.eq_of_cells (List.pairwise_map.mpr h.apart) (List.pairwise_map.mpr k.apart)
      (filled free) (filled free') fun x => ?_)
  rw [h.tiles.mem_left_iff, k.tiles.mem_left_iff]
  simp only [(perm.map (Block.span L)).mem_iff]

end Canonical

section Counters
variable {L : Layout} {s s' : EhMemRun} {bs : List Block} {p n ptr : Nat}

/-- The counters that a call of `eh_mem_insert` does not compute from the list. -/
def EhMemRun.counters (s : EhMemRun) : Nat × Nat := (s.memTotalSize, s.memUseBlockCnt)

theorem insertTail_counters (q : Nat) :
    (insertTail L s p q).counters = (s.memTotalSize, minus s.memUseBlockCnt 1) := by
  unfold insertTail
  dsimp only
  split <;> rfl

theorem ehMemInsert_counters (run : ehMemInsert L s p = some s') :
    s'.counters = (s.memTotalSize, minus s.memUseBlockCnt 1) := by
  have run' := run
  unfold ehMemInsert at run'
  obtain ⟨⟨prev, pos⟩, found, -⟩ := Option.bind_eq_some_iff.mp run'
  obtain rfl := Option.some.inj ((ehMemInsert_eq found).symm.trans run)
  split
  · exact insertTail_counters _
  · exact insertTail_counters _

theorem ehMemInit_counters {array : List EhMemHeap} {code : Int} (regions : array ≠ [])
    (run : ehMemInit L s array = some (code, s')) :
    code = 0 ∧ s'.counters = (s'.memFreeSize, 0) := by
  unfold ehMemInit at run
  rw [if_neg (fun empty => regions (List.length_eq_zero_iff.mp empty))] at run
  obtain ⟨t, -, last⟩ := Option.bind_eq_some_iff.mp run
  cases last
  exact ⟨rfl, rfl⟩

end Counters

/-- `mem_total_size` is what it was, and `mem_use_block_cnt` counts the live pointers. -/
def Counted (total : Nat) (s : System) : Prop := s.heap.counters = (total, word s.live.length)

theorem word_succ (n : Nat) : word (word n + 1) = word (n + 1) := by
  unfold word
  omega

theorem minus_word_succ (n : Nat) : minus (word (n + 1)) 1 = word n := by
  unfold minus word
  omega

theorem length_eraseP_ptr {live : List (Nat × Nat)} {e : Nat × Nat} (mem : e ∈ live) :
    (live.eraseP fun f => f.1 = e.1).length + 1 = live.length := by
  rw [List.length_eraseP_of_mem mem (by simp)]
  exact Nat.sub_add_cancel (List.length_pos_of_mem mem)

theorem eraseP_eq_filter {live : List (Nat × Nat)}
    (distinct : live.Pairwise fun e f => e.1 ≠ f.1) (p : Nat) :
    (live.eraseP fun e => e.1 = p) = live.filter fun e => e.1 ≠ p := by
  induction live with
  | nil => rfl
  | cons e live ih =>
    obtain ⟨first, rest⟩ := List.pairwise_cons.mp distinct
    by_cases here : e.1 = p
    · subst here
      rw [List.eraseP_cons_of_pos (by simp), List.filter_cons_of_neg (by simp)]
      exact (List.filter_eq_self.mpr fun f mem => decide_eq_true (first f mem).symm).symm
    · rw [List.eraseP_cons_of_neg (by simpa using here), List.filter_cons_of_pos (by simpa using here),
        ih rest]

namespace Inv
variable {L : Layout} {array : List EhMemHeap} {s t : System} {free : List Block} {total : Nat}

theorem counted (h : Inv L array s free) (usable : Usable L array) (before : Counted total s)
    {op : Op} (legal : op.Legal s) (run : step L s op = some t) : Counted total t := by
  cases op with
  | malloc n =>
    have clear : ∀ b ∈ free, ∀ y, b.addr ≤ y → y < b.stop L → y ≠ L.firstBlock :=
      fun b mem y lo hi => usable.ne_firstBlock (h.cells_free mem ⟨lo, hi⟩)
    rcases ehMalloc_spec (n := n) h.tidy.linked clear with none | ⟨a, heap, some, alloc⟩
    · rw [step, none] at run
      cases run
      exact before
    · have head := L.sixteen_le_headSize
      rw [step, some] at run
      simp only [Option.bind_eq_bind, Option.bind_some, Option.pure_def, Option.some.injEq] at run
      subst run
      obtain ⟨total, used⟩ := Prod.mk.inj before
      refine Prod.ext (alloc.total.trans total) ?_
      have : a.addr + L.headSize ≠ 0 := by omega
      simp only [EhMemRun.counters, if_neg this, List.length_cons]
      rw [alloc.used, used, word_succ]
  | free ptr =>
    obtain ⟨heap, freed, last⟩ := Option.bind_eq_some_iff.mp run
    cases last
    rw [ehFree] at freed
    by_cases null : ptr = 0
    · rw [if_pos null] at freed
      cases freed
      have kept : s.live.eraseP (fun e => e.1 = ptr) = s.live := by
        refine List.eraseP_of_forall_not fun e mem eq => ?_
        have := (h.entries e mem).1
        have := L.sixteen_le_headSize
        simp only [decide_eq_true_eq] at eq
        omega
      rw [Counted, kept]
      exact before
    · rw [if_neg null] at freed
      obtain ⟨e, mem, rfl⟩ := legal.resolve_left null
      obtain ⟨total, used⟩ := Prod.mk.inj before
      rw [Counted, ehMemInsert_counters freed, total, used, ← length_eraseP_ptr mem,
        minus_word_succ]
  | store addr value =>
    cases run
    exact before

theorem pointers (h : Inv L array s free) : s.live.Pairwise fun e f => e.1 ≠ f.1 := by
  have disjoint := (List.pairwise_append.mp h.tidy.tiles.disjoint).2.1
  simp only [System.allocated, blocksOf, List.map_map, List.pairwise_map] at disjoint
  refine disjoint.imp fun {e f} apart same => ?_
  have inside := Block.addr_mem_span L ⟨e.1 - L.headSize, s.heap.size (e.1 - L.headSize)⟩
  exact Set.disjoint_left.mp apart inside (by simp only [Function.comp, ← same]; exact inside)

theorem freeAll {ptrs : List Nat} (h : Inv L array s free) (usable : Usable L array)
    (counted : Counted total s) (nodup : ptrs.Nodup)
    (allocated : ∀ p ∈ ptrs, ∃ e ∈ s.live, e.1 = p) :
    ∃ t cs, Memory.freeAll L s.heap ptrs = some t.heap ∧ Inv L array t cs ∧ Counted total t ∧
      t.live = s.live.filter (fun e => e.1 ∉ ptrs) ∧
      t.allocated L = blocksOf L s.heap t.live := by
  induction ptrs generalizing s free with
  | nil => exact ⟨s, free, rfl, h, counted, by simp, rfl⟩
  | cons p ptrs ih =>
    obtain ⟨fresh, nodup⟩ := List.nodup_cons.mp nodup
    have legal : (Op.free p).Legal s := .inr (allocated p (List.mem_cons_self ..))
    obtain ⟨u, bs, run, inv, same⟩ := h.free_step usable legal
    obtain ⟨heap, first, last⟩ := Option.bind_eq_some_iff.mp run
    have live : u.live = s.live.filter fun e => e.1 ≠ p := by
      cases last
      exact eraseP_eq_filter h.pointers p
    have stays : ∀ q ∈ ptrs, ∃ e ∈ u.live, e.1 = q := by
      intro q mem
      obtain ⟨e, memE, rfl⟩ := allocated q (List.mem_cons_of_mem _ mem)
      refine ⟨e, ?_, rfl⟩
      rw [live, List.mem_filter]
      exact ⟨memE, decide_eq_true fun eq => fresh (eq ▸ mem)⟩
    obtain ⟨t, cs, run', inv', counted', live', same'⟩ :=
      ih inv (h.counted usable counted legal run) nodup stays
    refine ⟨t, cs, ?_, inv', counted', ?_, ?_⟩
    · rw [Memory.freeAll, List.foldlM_cons, first]
      cases last
      exact run'
    · rw [live', live, List.filter_filter]
      refine List.filter_congr fun e _ => ?_
      simp only [List.mem_cons, not_or, decide_not, Bool.decide_and]
      exact Bool.and_comm ..
    · rw [same']
      refine List.map_congr_left fun e mem => ?_
      rw [size_eq_of_blocksOf same e (List.mem_of_mem_filter (live' ▸ mem))]

theorem sameFree {bs cs : List Block} (h : Inv L array s bs) (k : Inv L array t cs)
    (perm : (s.allocated L).Perm (t.allocated L)) : SameFree L s.heap t.heap := by
  obtain rfl := h.tidy.free_eq k.tidy perm
  exact ⟨_, h.tidy.linked.dump_eq, k.tidy.linked.dump_eq, h.tidy.linked.free.trans k.tidy.linked.free.symm⟩

theorem reach {heap : EhMemRun} {ops : List Op} {cs : List Block} (usable : Usable L array)
    (first : Inv L array (start heap) cs) (counted : Counted total (start heap))
    (run : Reach L heap ops s) : (∃ free, Inv L array s free) ∧ Counted total s := by
  refine Run.invariant (I := fun s => (∃ free, Inv L array s free) ∧ Counted total s) ?_ run
    ⟨⟨cs, first⟩, counted⟩
  rintro s op t ⟨⟨free, inv⟩, counted⟩ ⟨legal, run⟩
  obtain ⟨t', bs, run', inv'⟩ := inv.step_ok usable legal
  refine ⟨⟨bs, ?_⟩, inv.counted usable counted legal run⟩
  exact Option.some.inj (run'.symm.trans run) ▸ inv'

end Inv

/-- In every reachable state: a set of allocated blocks freed in any two orders leaves the
same free list, `eh_free` undoes a successful `eh_malloc`, and once everything is freed the
heap is the one that `eh_mem_init` has built. -/
theorem ehFree_restores {L : Layout} {array : List EhMemHeap} (usable : Usable L array)
    (regions : array ≠ []) (s₀ : EhMemRun) :
    ∃ heap, ehMemInit L s₀ array = some (0, heap) ∧ ∀ ops s, Reach L heap ops s →
      (∀ ptrs ptrs' : List Nat, ptrs.Nodup → (∀ p ∈ ptrs, ∃ e ∈ s.live, e.1 = p) →
        ptrs.Perm ptrs' → ∃ h h', freeAll L s.heap ptrs = some h ∧
          freeAll L s.heap ptrs' = some h' ∧ SameFree L h h') ∧
      (∀ size ptr h, ehMalloc L s.heap size = some (ptr, h) → ptr ≠ 0 →
        ∃ h', ehFree L h ptr = some h' ∧ SameFree L h' s.heap) ∧
      ∀ ptrs, ptrs.Perm (s.live.map Prod.fst) → ∃ h, freeAll L s.heap ptrs = some h ∧
        SameFree L h heap ∧ h.memFreeSize = h.memTotalSize ∧ h.memUseBlockCnt = 0 := by
  obtain ⟨code, heap, cs, init, tidy, -, least⟩ := ehMemInit_spec usable s₀
  obtain ⟨rfl, counters⟩ := ehMemInit_counters regions init
  have first : Inv L array (start heap) cs :=
    ⟨tidy, by simp [start], by simp [start], by simp [start, least]⟩
  refine ⟨heap, init, fun ops s reached => ?_⟩
  obtain ⟨⟨free, inv⟩, counted⟩ := Inv.reach usable first counters reached
  refine ⟨fun ptrs ptrs' nodup live perm => ?_, fun size ptr h run some => ?_,
    fun ptrs perm => ?_⟩
  · obtain ⟨t, bs, run, invT, -, liveT, sameT⟩ := inv.freeAll usable counted nodup live
    obtain ⟨u, ds, run', invU, -, liveU, sameU⟩ := inv.freeAll usable counted
      (perm.nodup_iff.mp nodup) fun p mem => live p (perm.mem_iff.mpr mem)
    refine ⟨t.heap, u.heap, run, run', invT.sameFree invU (List.Perm.of_eq ?_)⟩
    rw [sameT, sameU, liveT, liveU]
    simp only [perm.mem_iff]
  · obtain ⟨t, bs, run', invT, sameT⟩ := inv.malloc_step usable size
    have heapT : t.heap = h ∧ t.live = (ptr, size) :: s.live := by
      rw [step, run] at run'
      cases run'
      exact ⟨rfl, if_neg some⟩
    obtain ⟨rfl, liveT⟩ := heapT
    obtain ⟨u, ds, freed, invU, sameU⟩ := invT.free_step usable
      (.inr ⟨(ptr, size), by simp [liveT], rfl⟩)
    obtain ⟨h', free', last⟩ := Option.bind_eq_some_iff.mp freed
    cases last
    refine ⟨h', free', invU.sameFree inv (List.Perm.of_eq ?_)⟩
    simpa [liveT, sameT] using sameU
  · have nodup : (s.live.map Prod.fst).Nodup := List.pairwise_map.mpr inv.pointers
    obtain ⟨t, bs, run, invT, countedT, liveT, sameT⟩ := inv.freeAll usable counted
      (perm.nodup_iff.mpr nodup) fun p mem => by simpa using perm.mem_iff.mp mem
    have none : t.live = [] := by
      rw [liveT, List.filter_eq_nil_iff]
      intro e mem listed
      exact of_decide_eq_true listed (perm.mem_iff.mpr (List.mem_map_of_mem mem))
    have same : SameFree L t.heap heap :=
      invT.sameFree first (by simp [System.allocated, blocksOf, none, start])
    have size : t.heap.memFreeSize = heap.memFreeSize := same.choose_spec.2.2
    obtain ⟨total, used⟩ := Prod.mk.inj countedT
    refine ⟨t.heap, run, same, size.trans total.symm, used.trans (by simp [none, word])⟩

theorem ehFree_restores_one :
    ∃ heap, ehMemInit ⟨4, by decide, 4096, by decide, by decide⟩
        ⟨fun _ => ⟨0, 0⟩, 0, 0, 0, 0⟩ [⟨8200, 1000⟩] = some (0, heap) ∧
      ∀ ops s, Reach ⟨4, by decide, 4096, by decide, by decide⟩ heap ops s →
        ∀ ptrs, ptrs.Perm (s.live.map Prod.fst) → ∃ h,
          freeAll ⟨4, by decide, 4096, by decide, by decide⟩ s.heap ptrs = some h ∧
            h.memFreeSize = h.memTotalSize := by
  have usable : Usable ⟨4, by decide, 4096, by decide, by decide⟩ [⟨8200, 1000⟩] :=
    ⟨by decide, by decide, by decide, by decide, by decide⟩
  obtain ⟨heap, init, all⟩ := ehFree_restores usable (by decide) ⟨fun _ => ⟨0, 0⟩, 0, 0, 0, 0⟩
  refine ⟨heap, init, fun ops s reached ptrs perm => ?_⟩
  obtain ⟨h, run, -, full, -⟩ := (all ops s reached).2.2 ptrs perm
  exact ⟨h, run, full⟩

end EventHub.Memory
