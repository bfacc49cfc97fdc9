import EventHub.Memory.FreeList

/-! What insertion into the free list and allocation from it do. -/

namespace EventHub.Memory
open Library

section Insert
variable {L : Layout} {s : EhMemRun} {bs l r : List Block} {a b : Block}

theorem exists_insertion_point (ordered : bs.Pairwise fun a b => a.stop L ≤ b.addr)
    (fits : ∀ a ∈ bs, a.stop L ≤ b.addr ∨ b.stop L ≤ a.addr) :
    ∃ l r, bs = l ++ r ∧ (∀ a ∈ l, a.stop L ≤ b.addr) ∧ ∀ c ∈ r, b.stop L ≤ c.addr := by
  induction bs with
  | nil => exact ⟨[], [], rfl, by simp, by simp⟩
  | cons a bs ih =>
    obtain ⟨first, rest⟩ := List.pairwise_cons.mp ordered
    rcases fits a (by simp) with before | after
    · obtain ⟨l, r, rfl, left, right⟩ := ih rest fun c mem => fits c (by simp [mem])
      exact ⟨a :: l, r, rfl, by simpa using ⟨before, left⟩, right⟩
    · refine ⟨[], a :: bs, rfl, by simp, ?_⟩
      simp only [List.mem_cons, forall_eq_or_imp]
      refine ⟨after, fun c mem => ?_⟩
      have := first c mem
      simp only [Block.stop] at *
      omega

theorem addr_lt_stop : b.addr < b.stop L := by
  have := L.sixteen_le_headSize
  simp only [Block.stop]
  omega

theorem Linked.length_lt (h : Linked L s bs) : bs.length < addressSpace := by
  have room := h.room
  have := Nat.mul_le_mul_left bs.length L.sixteen_le_headSize
  simp only [addressSpace]
  omega

theorem Linked.search_eq {skip : Nat → Bool} (h : Linked L s (l ++ r))
    (skipped : ∀ a ∈ l, skip a.addr) (stops : ∀ c ∈ r.head?, skip c.addr = false) :
    search s.next 0 skip addressSpace L.firstBlock (s.next L.firstBlock) =
      some (prevOf L l, posOf r) := by
  have path : Path s.next (s.next L.firstBlock) (l.map Block.addr ++ r.map Block.addr) 0 := by
    simpa using h.path.2
  refine search_of_path path ?_ ?_ ?_ ?_
  · simp only [List.forall_mem_map]
    exact fun a mem => (h.inside a (by simp [mem])).1.ne'
  · simpa only [List.forall_mem_map] using skipped
  · cases r with
    | nil => simp
    | cons c r => simpa using stops
  · have := h.length_lt
    simp only [List.length_map, List.length_append] at *
    omega

/-- The second test of `eh_mem_insert`. -/
theorem Linked.join_next (h : Linked L s (l ++ a :: r)) (left : Apart L (l ++ [a]))
    (right : Apart L r) :
    ∃ cs, Linked L (if touches L s a.addr (posOf r) then merge L s a.addr (posOf r) else s) cs ∧
      Coalesce L (l ++ a :: r) cs ∧ Apart L cs := by
  obtain ⟨leftL, -, across⟩ := List.pairwise_append.mp left
  have close : ∀ x ∈ l, x.stop L < a.addr := fun x mem => across x mem a (by simp)
  obtain ⟨-, ordered, -⟩ := List.pairwise_append.mp h.ordered
  obtain ⟨after, -⟩ := List.pairwise_cons.mp ordered
  have far : ∀ x ∈ l, ∀ c ∈ r, x.stop L < c.addr := fun x inL c inR =>
    lt_of_lt_of_le (close x inL) ((addr_lt_stop (L := L)).le.trans (after c inR))
  by_cases touch : touches L s a.addr (posOf r)
  · rw [if_pos touch]
    have joined := h.touches_iff.mp touch
    cases r with
    | nil =>
      have : 0 < a.stop L := (Nat.zero_le _).trans_lt addr_lt_stop
      simp [posOf] at joined
      omega
    | cons c r =>
      refine ⟨_, h.merge_spec joined, .join .refl joined, ?_⟩
      obtain ⟨first, right⟩ := List.pairwise_cons.mp right
      refine List.pairwise_append.mpr ⟨leftL, .cons ?_ right, fun x inL d mem => ?_⟩
      · rw [Block.stop_join joined]
        exact first
      · rcases List.mem_cons.mp mem with rfl | inR
        · exact close x inL
        · exact far x inL d (by simp [inR])
  · rw [if_neg touch]
    refine ⟨_, h, .refl, List.pairwise_append.mpr ⟨leftL, .cons ?_ right, fun x inL d mem => ?_⟩⟩
    · have gap : a.stop L ≠ posOf r := fun same => touch (h.touches_iff.mpr same)
      cases r with
      | nil => simp
      | cons c r =>
        obtain ⟨first, -⟩ := List.pairwise_cons.mp right
        have here : a.stop L < c.addr := lt_of_le_of_ne (after c (by simp)) gap
        simp only [List.mem_cons, forall_eq_or_imp]
        exact ⟨here, fun d mem => here.trans (addr_lt_stop.trans (first d mem))⟩
    · rcases List.mem_cons.mp mem with rfl | inR
      · exact close x inL
      · exact far x inL d inR

structure Kept (s s' : EhMemRun) (changed : List Nat) : Prop where
  block : ∀ p, p ∉ changed → s'.block p = s.block p
  total : s'.memTotalSize = s.memTotalSize
  least : s'.memMinEverFreeSizeLevel = s.memMinEverFreeSizeLevel

namespace Kept
variable {s' s'' : EhMemRun} {changed : List Nat} {p q n : Nat}

theorem trans (h : Kept s s' changed) (k : Kept s' s'' changed) : Kept s s'' changed :=
  ⟨fun p out => (k.block p out).trans (h.block p out), k.total.trans h.total,
    k.least.trans h.least⟩

theorem link (mem : p ∈ changed) (mem' : b.addr ∈ changed) :
    Kept s (link s p b.addr q) changed :=
  ⟨fun _ out => link_block (fun same => out (same ▸ mem)) fun same => out (same ▸ mem'),
    rfl, rfl⟩

theorem merge (mem : p ∈ changed) : Kept s (merge L s p q) changed :=
  ⟨fun _ out => merge_block fun same => out (same ▸ mem), rfl, rfl⟩

end Kept

/-- The rest of `eh_mem_insert` once the block at `p` has been settled with its
predecessor. -/
def insertTail (L : Layout) (s : EhMemRun) (p q : Nat) : EhMemRun :=
  let s := if touches L s p q then merge L s p q else s
  { s with memUseBlockCnt := minus s.memUseBlockCnt 1 }

theorem Kept.insertTail {changed : List Nat} {p q : Nat} (mem : p ∈ changed) :
    Kept s (insertTail L s p q) changed := by
  unfold Memory.insertTail
  by_cases touch : touches L s p q
  · simp only [if_pos touch]
    have kept : Kept s (Memory.merge L s p q) changed := .merge mem
    exact ⟨kept.block, kept.total, kept.least⟩
  · simp only [if_neg touch]
    exact ⟨fun _ _ => rfl, rfl, rfl⟩

theorem Linked.insertTail {p q : Nat}
    (h : Linked L (if touches L s p q then merge L s p q else s) bs) :
    Linked L (insertTail L s p q) bs := by
  exact h.withCnt _

theorem ehMemInsert_eq {prev pos p : Nat}
    (found : search s.next 0 (fun q => q < p) addressSpace L.firstBlock
      (s.next L.firstBlock) = some (prev, pos)) :
    ehMemInsert L s p = some (
      if touches L (link s prev p pos) prev p then
        insertTail L (merge L (link s prev p pos) prev p) prev pos
      else insertTail L (link s prev p pos) p pos) := by
  simp only [ehMemInsert, found, Option.bind_eq_bind, Option.bind_some]
  split <;> rfl

theorem ehMemInsert_spec (h : Linked L s bs) (apart : Apart L bs)
    (size : s.size b.addr = b.size)
    (inside : 0 < b.addr ∧ b.addr ≠ L.firstBlock ∧ b.stop L < 2 ^ 64)
    (fits : ∀ a ∈ bs, a.stop L ≤ b.addr ∨ b.stop L ≤ a.addr)
    (sentinel : word (L.firstBlock + L.headSize) ≠ b.addr) :
    ∃ l r s' cs, bs = l ++ r ∧ ehMemInsert L s b.addr = some s' ∧ Linked L s' cs ∧
      Apart L cs ∧ Coalesce L (l ++ b :: r) cs ∧
      Kept s s' (L.firstBlock :: b.addr :: bs.map Block.addr) := by
  obtain ⟨l, r, rfl, before, after⟩ := exists_insertion_point h.ordered fits
  have found : search s.next 0 (fun pos => pos < b.addr) addressSpace L.firstBlock
      (s.next L.firstBlock) = some (prevOf L l, posOf r) := by
    refine h.search_eq (fun a mem => ?_) fun c mem => ?_
    · exact decide_eq_true (lt_of_lt_of_le addr_lt_stop (before a mem))
    · have := after c (List.mem_of_mem_head? mem)
      exact decide_eq_false (by have := addr_lt_stop (L := L) (b := b); omega)
  have linked := h.link_spec size inside before after
  obtain ⟨left, right, -⟩ := List.pairwise_append.mp apart
  have run := ehMemInsert_eq found
  have prevMem : prevOf L l ∈ L.firstBlock :: b.addr :: (l ++ r).map Block.addr := by
    have := List.getLastD_mem_cons (l := l.map Block.addr) (a := L.firstBlock)
    rw [List.map_append]
    simp only [prevOf, List.mem_cons, List.mem_append] at this ⊢
    tauto
  have linkKept : Kept s (link s (prevOf L l) b.addr (posOf r))
      (L.firstBlock :: b.addr :: (l ++ r).map Block.addr) := .link prevMem (by simp)
  by_cases touch : touches L (link s (prevOf L l) b.addr (posOf r)) (prevOf L l) b.addr
  · rw [if_pos touch] at run
    -- the predecessor that touches is a block, not the head of the list
    rcases List.eq_nil_or_concat' l with rfl | ⟨l, a, rfl⟩
    · have head := linked.head_size
      simp only [touches, prevOf, List.map_nil, List.getLastD_nil] at touch head
      rw [head, Nat.add_zero] at touch
      exact absurd touch sentinel
    · have prev : prevOf L (l ++ [a]) = a.addr := by simp [prevOf]
      rw [prev] at run linked linkKept prevMem touch
      have linked : Linked L (link s a.addr b.addr (posOf r)) (l ++ a :: b :: r) := by
        simpa using linked
      have joined := linked.touches_iff.mp touch
      have close : Apart L (l ++ [a.join L b]) := by
        obtain ⟨leftL, -, across⟩ := List.pairwise_append.mp left
        exact List.pairwise_append.mpr ⟨leftL, List.pairwise_singleton .., by simpa using across⟩
      obtain ⟨cs, final, coalesce, apartC⟩ := (linked.merge_spec joined).join_next close right
      refine ⟨l ++ [a], r, _, cs, rfl, run, final.insertTail, apartC, ?_, ?_⟩
      · rw [List.append_assoc]
        exact (Coalesce.join .refl joined).trans coalesce
      · exact (linkKept.trans (.merge prevMem)).trans (.insertTail prevMem)
  · rw [if_neg touch] at run
    have close : Apart L (l ++ [b]) := by
      refine List.pairwise_append.mpr ⟨left, List.pairwise_singleton .., fun x mem c same => ?_⟩
      obtain rfl := List.mem_singleton.mp same
      rcases List.eq_nil_or_concat' l with rfl | ⟨l, a, rfl⟩
      · simp at mem
      · have prev : prevOf L (l ++ [a]) = a.addr := by simp [prevOf]
        rw [prev] at linked touch
        have linked : Linked L (link s a.addr c.addr (posOf r)) (l ++ a :: c :: r) := by
          simpa using linked
        have gap : a.stop L < c.addr := lt_of_le_of_ne (before a (by simp)) fun same =>
          touch (linked.touches_iff.mpr same)
        rcases List.mem_append.mp mem with inL | same
        · have := (List.pairwise_append.mp left).2.2 x inL a (by simp)
          exact (this.trans addr_lt_stop).trans gap
        · exact List.mem_singleton.mp same ▸ gap
    obtain ⟨cs, final, coalesce, apartC⟩ := linked.join_next close right
    exact ⟨l, r, _, cs, rfl, run, final.insertTail, apartC, coalesce,
      linkKept.trans (.insertTail (by simp))⟩

end Insert

/-- The block that an allocation takes from `b`, and what stays free of it. -/
inductive Carve (L : Layout) (b : Block) : Block → List Block → Prop
  | whole : Carve L b b []
  | split {n : Nat} : n + L.headSize ≤ b.size →
      Carve L b ⟨b.addr, n⟩ [⟨b.addr + n + L.headSize, b.size - n - L.headSize⟩]

namespace Carve
variable {L : Layout} {b a : Block} {cs l r : List Block}

theorem tiles {U : Set Nat} {rest : List (Span Nat)} (h : Carve L b a cs)
    (tiles : Tiles U ((l ++ b :: r).map (Block.span L) ++ rest)) :
    Tiles U ((l ++ (cs ++ r)).map (Block.span L) ++ a.span L :: rest) := by
  have first : Tiles U (b.span L :: ((l ++ r).map (Block.span L) ++ rest)) := by
    refine tiles.perm ?_
    simp only [List.map_append, List.map_cons, List.append_assoc, List.cons_append]
    exact List.perm_middle
  cases h with
  | whole => exact first.perm List.perm_middle.symm
  | @split n fits =>
    have stays : Block.span L ⟨b.addr + n + L.headSize, b.size - n - L.headSize⟩ =
        ⟨b.addr + n + L.headSize, b.stop L⟩ := by
      simp only [Block.span, Block.stop, Span.mk.injEq, true_and]
      omega
    rw [show b.span L = ⟨b.addr, b.stop L⟩ from rfl,
      Tiles.cut (show b.addr ≤ b.addr + n + L.headSize by omega)
        (by simp only [Block.stop]; omega)] at first
    refine first.perm (.trans (.cons _ ?_) List.perm_middle.symm)
    simp only [List.map_append, List.map_cons, List.nil_append, List.append_assoc,
      List.cons_append, stays]
    exact List.perm_middle.symm

theorem aligned (h : Carve L b a cs) (ha : L.alignSize ∣ a.size)
    (hb : L.alignSize ∣ b.addr ∧ L.alignSize ∣ b.size) :
    L.alignSize ∣ a.addr ∧ ∀ c ∈ cs, L.alignSize ∣ c.addr ∧ L.alignSize ∣ c.size := by
  have head : L.alignSize ∣ L.headSize := L.dvd_headSize
  cases h with
  | whole => simp [hb]
  | split =>
    simp only [List.mem_singleton, forall_eq]
    exact ⟨hb.1, Nat.dvd_add (Nat.dvd_add hb.1 ha) head,
      Nat.dvd_sub (Nat.dvd_sub hb.2 ha) head⟩

theorem inside (h : Carve L b a cs) : ∀ c ∈ cs, c.addr ∈ (b.span L).cells := by
  cases h with
  | whole => simp
  | split fits =>
    simp only [List.mem_singleton, forall_eq]
    have := L.sixteen_le_headSize
    refine ⟨by simp only [Block.span]; omega, ?_⟩
    simp only [Block.span, Block.stop]
    omega

theorem apart (h : Carve L b a cs) (apart : Apart L (l ++ b :: r)) :
    Apart L (l ++ (cs ++ r)) := by
  cases h with
  | whole => exact apart.sublist ((List.Sublist.refl l).append (List.sublist_cons_self b r))
  | @split n fits =>
    obtain ⟨left, right, across⟩ := List.pairwise_append.mp apart
    obtain ⟨after, right⟩ := List.pairwise_cons.mp right
    refine List.pairwise_append.mpr ⟨left, .cons (fun d mem => ?_) right, fun x inL d mem => ?_⟩
    · have := after d mem
      simp only [Block.stop] at *
      omega
    · rcases List.mem_cons.mp mem with rfl | inR
      · have := across x inL b (by simp)
        simp only at *
        omega
      · exact across x inL d (List.mem_cons_of_mem _ inR)

end Carve

section Malloc
variable {L : Layout} {s : EhMemRun} {bs l r : List Block} {b : Block} {n p : Nat}

/-- The test of `eh_malloc` for a part worth splitting off, without the wrapping. -/
theorem split_eq (le : n ≤ s.size p) (lt : s.size p + L.headSize < 2 ^ 64)
    (inside : p + s.size p < 2 ^ 64) :
    split L s p n =
      if n + L.headSize + L.alignSize < s.size p then
        let c := p + n + L.headSize
        let m := s.size p - n - L.headSize
        let s := (((s.setSize c m).setNext c (s.next p)).setSize p n).setNext p c
        { s with memFreeSize := word (s.memFreeSize + m) }
      else s := by
  have head := L.sixteen_le_headSize
  have small : minus (s.size p) n = s.size p - n := minus_of_le le (by omega)
  unfold split
  rw [small]
  by_cases fits : n + L.headSize ≤ s.size p
  · rw [minus_of_le (by omega) (by omega), word_of_lt (x := p + n + L.headSize) (by omega)]
    by_cases part : n + L.headSize + L.alignSize < s.size p
    · rw [if_pos part, if_pos (by omega)]
      simp only [EhMemRun.setSize_next]
    · rw [if_neg part, if_neg (by omega)]
  · have wraps : minus (s.size p - n) L.headSize = 2 ^ 64 - (n + L.headSize - s.size p) := by
      unfold minus
      rw [word_of_lt (x := L.headSize) (by omega), word_of_lt (by omega)]
      omega
    rw [wraps, if_neg (by omega), if_neg (by omega)]

/-- The end of `eh_malloc`: the link around the block and the two records. -/
def takeOut (s : EhMemRun) (prev p : Nat) : EhMemRun :=
  let s := if s.memFreeSize < s.memMinEverFreeSizeLevel then
      { s with memMinEverFreeSizeLevel := s.memFreeSize }
    else s
  let s := s.setNext prev (s.next p)
  { s with memUseBlockCnt := word (s.memUseBlockCnt + 1) }

@[simp] theorem takeOut_next (prev q : Nat) :
    (takeOut s prev p).next q = if q = prev then s.next p else s.next q := by
  unfold takeOut
  split <;> exact EhMemRun.setNext_next ..

@[simp] theorem takeOut_size (prev q : Nat) : (takeOut s prev p).size q = s.size q := by
  unfold takeOut
  split <;> exact EhMemRun.setNext_size ..

@[simp] theorem takeOut_memFreeSize (prev : Nat) :
    (takeOut s prev p).memFreeSize = s.memFreeSize := by
  unfold takeOut
  split <;> rfl

theorem takeOut_least (prev : Nat) : (takeOut s prev p).memMinEverFreeSizeLevel =
    min s.memMinEverFreeSizeLevel s.memFreeSize := by
  unfold takeOut
  by_cases less : s.memFreeSize < s.memMinEverFreeSizeLevel
  · simp only [if_pos less]
    exact (Nat.min_eq_right less.le).symm
  · simp only [if_neg less]
    exact (Nat.min_eq_left (Nat.le_of_not_lt less)).symm

theorem takeOut_block {prev q : Nat} (ne : q ≠ prev) :
    (takeOut s prev p).block q = s.block q := by
  unfold takeOut
  split <;> exact Function.update_of_ne ne ..

theorem split_used : (split L s p n).memUseBlockCnt = s.memUseBlockCnt := by
  unfold split
  dsimp only
  split <;> rfl

theorem takeOut_used (prev : Nat) :
    (takeOut s prev p).memUseBlockCnt = word (s.memUseBlockCnt + 1) := by
  unfold takeOut
  split <;> rfl

theorem exists_first_fit (n : Nat) (bs : List Block) :
    ∃ l r, bs = l ++ r ∧ (∀ a ∈ l, a.size < n) ∧ ∀ c ∈ r.head?, n ≤ c.size := by
  induction bs with
  | nil => exact ⟨[], [], rfl, by simp, by simp⟩
  | cons a bs ih =>
    by_cases small : a.size < n
    · obtain ⟨l, r, rfl, left, right⟩ := ih
      exact ⟨a :: l, r, rfl, by simpa using ⟨small, left⟩, right⟩
    · exact ⟨[], a :: bs, rfl, by simp, by simpa using small⟩

theorem Linked.takeOut_split (h : Linked L s (l ++ b :: r)) (le : n ≤ b.size)
    (clear : ∀ y, b.addr ≤ y → y < b.stop L → y ≠ L.firstBlock) :
    ∃ a cs, Carve L b a cs ∧ a.addr = b.addr ∧ (a.size = n ∨ a = b) ∧
      let s' := split L { s with memFreeSize := minus s.memFreeSize b.size } b.addr n
      let t := takeOut s' (prevOf L l) b.addr
      Linked L t (l ++ (cs ++ r)) ∧ t.size a.addr = a.size ∧
        s'.memTotalSize = s.memTotalSize ∧
        s'.memMinEverFreeSizeLevel = s.memMinEverFreeSizeLevel ∧
        ∀ q, q ≠ b.addr → (∀ c ∈ cs, q ≠ c.addr) → s'.block q = s.block q := by
  have sizeB : s.size b.addr = b.size := h.sizes b (by simp)
  have insideB := h.inside b (by simp)
  have others := h.others
  have prevB : b.addr ≠ prevOf L l := h.prev_ne b (by simp)
  have same : ∀ y ∈ L.firstBlock :: (l ++ r).map Block.addr, y ≠ b.addr := by
    simp only [List.mem_cons, List.mem_map]
    rintro y (rfl | ⟨c, inC, rfl⟩)
    · exact insideB.2.1.symm
    · exact others c inC
  have total : s.memFreeSize = (l.map Block.size).sum + (b.size + (r.map Block.size).sum) := by
    rw [h.free]
    simp
  have room := h.room
  simp only [← h.free] at room
  have less : minus s.memFreeSize b.size = s.memFreeSize - b.size :=
    minus_of_le (by omega) (by omega)
  have fits : b.size + L.headSize < 2 ^ 64 := by
    simp only [Block.stop] at insideB
    omega
  obtain ⟨s₀, start⟩ : ∃ s₀, s₀ = { s with memFreeSize := s.memFreeSize - b.size } := ⟨_, rfl⟩
  have next₀ : ∀ y, s₀.next y = s.next y := fun y => by rw [start]; rfl
  have size₀ : ∀ y, s₀.size y = s.size y := fun y => by rw [start]; rfl
  have block₀ : s₀.block = s.block := by rw [start]
  have free₀ : s₀.memFreeSize = s.memFreeSize - b.size := by rw [start]
  have total₀ : s₀.memTotalSize = s.memTotalSize := by rw [start]
  have least₀ : s₀.memMinEverFreeSizeLevel = s.memMinEverFreeSizeLevel := by rw [start]
  have sizeB₀ : s₀.size b.addr = b.size := (size₀ _).trans sizeB
  have nextB : s.next b.addr = posOf r := h.next_mem
  rw [less, ← start]
  clear start less
  simp only [Block.stop] at insideB
  have cut := split_eq (L := L) (s := s₀) (p := b.addr) (n := n) (by omega) (by omega) (by omega)
  rw [sizeB₀] at cut
  obtain ⟨left, right, across⟩ := List.pairwise_append.mp h.ordered
  obtain ⟨after, right⟩ := List.pairwise_cons.mp right
  by_cases part : n + L.headSize + L.alignSize < b.size
  · rw [if_pos part] at cut
    have head := L.sixteen_le_headSize
    let c : Block := ⟨b.addr + n + L.headSize, b.size - n - L.headSize⟩
    have stopC : c.stop L = b.stop L := by simp only [Block.stop, c]; omega
    have addrC : b.addr < c.addr := by simp only [c]; omega
    have insideC : c.addr < b.stop L := stopC ▸ addr_lt_stop
    have notC : ∀ y ∈ L.firstBlock :: (l ++ r).map Block.addr, y ≠ c.addr := by
      simp only [List.mem_cons, List.mem_map, List.mem_append]
      rintro y (rfl | ⟨d, inL | inR, rfl⟩)
      · exact (clear _ addrC.le insideC).symm
      · exact ((addr_lt_stop.trans_le (across d inL b (by simp))).trans addrC).ne
      · exact (insideC.trans_le (after d inR)).ne'
    have prevC : prevOf L l ≠ c.addr := by
      refine notC _ ?_
      rw [List.map_append, ← List.cons_append]
      exact List.mem_append_left _ (List.getLastD_mem_cons ..)
    have next : ∀ y, (split L s₀ b.addr n).next y =
        if y = b.addr then c.addr else if y = c.addr then posOf r else s.next y := by
      intro y
      rw [cut]
      refine (EhMemRun.setNext_next ..).trans ?_
      simp only [EhMemRun.setSize_next, EhMemRun.setNext_next, next₀, nextB, c]
    have size : ∀ y, (split L s₀ b.addr n).size y =
        if y = b.addr then n else if y = c.addr then c.size else s.size y := by
      intro y
      rw [cut]
      refine (EhMemRun.setNext_size ..).trans ?_
      simp only [EhMemRun.setSize_size, EhMemRun.setNext_size, size₀, c]
    refine ⟨⟨b.addr, n⟩, [c], .split (by omega), rfl, .inl rfl, ?_, ?_, ?_, ?_, ?_⟩
    · refine splice [c] (m := [b]) h ?_ (fun y mem ne => ?_) (fun y mem => ?_) ?_
        (List.pairwise_singleton ..) ?_ ?_ ?_
      · rw [takeOut_next, if_pos rfl, next, if_pos rfl]
        refine ⟨rfl, ?_⟩
        rw [takeOut_next, if_neg prevC.symm, next, if_neg addrC.ne', if_pos rfl]
        rfl
      · rw [takeOut_next, if_neg ne, next, if_neg (same y mem), if_neg (notC y mem)]
      · rw [takeOut_size, size, if_neg (same y mem), if_neg (notC y mem)]
      · simp only [List.mem_singleton, forall_eq, takeOut_size]
        rw [size, if_neg addrC.ne', if_pos rfl]
      · simp only [List.mem_singleton, forall_eq, stopC]
        exact ⟨fun d inL => (across d inL b (by simp)).trans addrC.le, after⟩
      · simp only [List.mem_singleton, forall_eq, stopC]
        exact ⟨by omega, clear _ addrC.le insideC, by simp only [Block.stop]; omega⟩
      · have free : (split L s₀ b.addr n).memFreeSize = word (s₀.memFreeSize + c.size) := by
          rw [cut]
          rfl
        rw [takeOut_memFreeSize, free, free₀, total, word_of_lt (by simp only [c]; omega)]
        simp only [List.map_append, List.map_cons, List.map_nil, List.sum_append, List.sum_cons,
          List.sum_nil, c]
        omega
    · rw [takeOut_size, size, if_pos rfl]
    · rw [cut]
      exact total₀
    · rw [cut]
      exact least₀
    · intro q notB notC
      have notC : q ≠ c.addr := notC c (by simp)
      rw [cut, ← block₀]
      simp only [EhMemRun.setNext, EhMemRun.setSize]
      rw [Function.update_of_ne notB, Function.update_of_ne notB, Function.update_of_ne notC,
        Function.update_of_ne notC]
  · rw [if_neg part] at cut
    rw [cut]
    refine ⟨b, [], .whole, rfl, .inr rfl, ?_, ?_, total₀, least₀, fun q _ _ => by rw [block₀]⟩
    · refine splice [] (m := [b]) h ?_ (fun y _ ne => ?_) (fun y _ => ?_) (by simp) .nil
        (by simp) (by simp) ?_
      · simp [next₀, nextB]
      · rw [takeOut_next, if_neg ne, next₀]
      · rw [takeOut_size, size₀]
      · rw [takeOut_memFreeSize, free₀, total]
        simp
        omega
    · rw [takeOut_size, sizeB₀]

/-- A block of the free list that `eh_malloc` hands out, and the state afterwards. -/
structure Allocates (L : Layout) (s : EhMemRun) (bs : List Block) (n : Nat) (a : Block)
    (s' : EhMemRun) : Prop where
  carve : ∃ l b r cs, bs = l ++ b :: r ∧ Carve L b a cs ∧ a.addr = b.addr ∧
    Linked L s' (l ++ (cs ++ r)) ∧
    ∀ q, q ∉ L.firstBlock :: bs.map Block.addr → (∀ c ∈ cs, q ≠ c.addr) →
      s'.block q = s.block q
  enough : n ≤ a.size
  aligned : L.alignSize ∣ a.size ∨ a ∈ bs
  header : s'.size a.addr = a.size
  total : s'.memTotalSize = s.memTotalSize
  used : s'.memUseBlockCnt = word (s.memUseBlockCnt + 1)
  least : s'.memMinEverFreeSizeLevel = min s.memMinEverFreeSizeLevel s'.memFreeSize

theorem Linked.ehMalloc_null (h : Linked L s bs)
    (none : L.alignUp n = 0 ∨ L.alignUp n < n ∨ ∀ b ∈ bs, b.size < L.alignUp n) :
    ehMalloc L s n = some (0, s) := by
  by_cases large : L.alignUp n = 0 ∨ L.alignUp n < n
  · exact if_pos large
  have small : ∀ b ∈ bs, b.size < L.alignUp n := by tauto
  by_cases short : s.memFreeSize < L.alignUp n
  · exact (if_neg large).trans (if_pos short)
  have found : search s.next 0 (fun pos => s.size pos < L.alignUp n) addressSpace L.firstBlock
      (s.next L.firstBlock) = some (prevOf L bs, posOf []) := by
    refine Linked.search_eq (l := bs) (r := []) (by simpa using h) (fun a mem => ?_) (by simp)
    rw [h.sizes a mem]
    exact decide_eq_true (small a mem)
  rw [ehMalloc, if_neg large, if_neg short, found]
  rfl

theorem Linked.ehMalloc_takes (h : Linked L s (l ++ b :: r))
    (fits : ¬(L.alignUp n = 0 ∨ L.alignUp n < n)) (small : ∀ a ∈ l, a.size < L.alignUp n)
    (le : L.alignUp n ≤ b.size) :
    ehMalloc L s n = some (b.addr + L.headSize,
      takeOut (split L { s with memFreeSize := minus s.memFreeSize b.size } b.addr
        (L.alignUp n)) (prevOf L l) b.addr) := by
  have inside := h.inside b (by simp)
  have enough : ¬ s.memFreeSize < L.alignUp n := by
    rw [h.free, List.map_append, List.map_cons, List.sum_append, List.sum_cons]
    omega
  have found : search s.next 0 (fun pos => s.size pos < L.alignUp n) addressSpace L.firstBlock
      (s.next L.firstBlock) = some (prevOf L l, b.addr) := by
    refine h.search_eq (fun a mem => ?_) fun c mem => ?_
    · rw [h.sizes a (by simp [mem])]
      exact decide_eq_true (small a mem)
    · cases mem
      rw [h.sizes b (by simp)]
      exact decide_eq_false (not_lt_of_ge le)
  have run : ehMalloc L s n = if b.addr = 0 then some (0, s) else
      some (word (b.addr + L.headSize), takeOut (split L
        { s with memFreeSize := minus s.memFreeSize (s.size b.addr) } b.addr
        (L.alignUp n)) (prevOf L l) b.addr) := by
    rw [ehMalloc, if_neg fits, if_neg enough, found]
    rfl
  rw [run, if_neg inside.1.ne', h.sizes b (by simp), word_of_lt]
  simp only [Block.stop] at inside
  omega

theorem ehMalloc_spec (h : Linked L s bs)
    (clear : ∀ b ∈ bs, ∀ y, b.addr ≤ y → y < b.stop L → y ≠ L.firstBlock) :
    ehMalloc L s n = some (0, s) ∨
      ∃ a s', ehMalloc L s n = some (a.addr + L.headSize, s') ∧ Allocates L s bs n a s' := by
  by_cases large : L.alignUp n = 0 ∨ L.alignUp n < n
  · exact .inl (h.ehMalloc_null (by tauto))
  obtain ⟨l, r, rfl, small, first⟩ := exists_first_fit (L.alignUp n) bs
  cases r with
  | nil => exact .inl (h.ehMalloc_null (by simpa using .inr (.inr small)))
  | cons b r =>
    right
    have le : L.alignUp n ≤ b.size := first b rfl
    obtain ⟨a, cs, carve, addr, size, linked, header, total, least, kept⟩ :=
      h.takeOut_split le (clear b (by simp))
    have run := h.ehMalloc_takes large small le
    refine ⟨a, _, by rw [run, addr], ⟨l, b, r, cs, rfl, carve, addr, linked, ?_⟩, ?_, ?_,
      header, ?_, (takeOut_used _).trans (by rw [split_used]), ?_⟩
    · intro q out notC
      have notPrev : q ≠ prevOf L l := by
        rintro rfl
        refine out ?_
        rw [List.map_append, ← List.cons_append]
        exact List.mem_append_left _ (List.getLastD_mem_cons ..)
      rw [takeOut_block notPrev]
      refine kept q ?_ notC
      rintro rfl
      exact out (by simp)
    · rcases size with size | rfl <;> omega
    · rcases size with size | rfl
      · exact .inl (size ▸ L.dvd_alignUp)
      · exact .inr (by simp)
    · refine Eq.trans ?_ total
      unfold takeOut
      split <;> rfl
    · rw [takeOut_least, takeOut_memFreeSize, least]

end Malloc

end EventHub.Memory
