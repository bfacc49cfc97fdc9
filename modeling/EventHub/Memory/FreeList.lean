import EventHub.Library.Tiling
import EventHub.Memory.Align
import Mathlib.Algebra.BigOperators.Group.List.Basic
import Mathlib.Algebra.Order.BigOperators.Group.List
import Mathlib.Data.List.Basic

/-! The free list as a list of blocks, and what the allocator's functions do to it. -/

namespace EventHub.Memory
open Library

namespace EhMemRun
variable (s : EhMemRun) (p q r n : Nat)

@[simp] theorem setNext_next : (s.setNext p q).next r = if r = p then q else s.next r := by
  unfold next setNext
  split
  · simp [*]
  · simp [Function.update_of_ne, *]

@[simp] theorem setNext_size : (s.setNext p q).size r = s.size r := by
  unfold size setNext
  by_cases h : r = p
  · simp [h, size]
  · simp [Function.update_of_ne h]

@[simp] theorem setSize_size : (s.setSize p n).size r = if r = p then n else s.size r := by
  unfold size setSize
  split
  · simp [*]
  · simp [Function.update_of_ne, *]

@[simp] theorem setSize_next : (s.setSize p n).next r = s.next r := by
  unfold next setSize
  by_cases h : r = p
  · simp [h, next]
  · simp [Function.update_of_ne h]

@[simp] theorem setNext_memFreeSize : (s.setNext p q).memFreeSize = s.memFreeSize := rfl

@[simp] theorem setSize_memFreeSize : (s.setSize p n).memFreeSize = s.memFreeSize := rfl

end EhMemRun

section Merge
variable (L : Layout) (s : EhMemRun) (p q r : Nat)

theorem merge_next : (merge L s p q).next r = if r = p then s.next q else s.next r := by
  simp only [merge, EhMemRun.setSize_next]
  exact (EhMemRun.setNext_next ..).trans (by simp)

theorem merge_size : (merge L s p q).size r =
    if r = p then word (s.size p + word (s.size q + L.headSize)) else s.size r := by
  simp only [merge, EhMemRun.setSize_next]
  exact (EhMemRun.setNext_size ..).trans (by simp)

theorem merge_block {L : Layout} {s : EhMemRun} {p q r : Nat} (ne : r ≠ p) :
    (merge L s p q).block r = s.block r := by
  simp [merge, EhMemRun.setNext, EhMemRun.setSize, Function.update_of_ne ne]

theorem link_block {s : EhMemRun} {p b q r : Nat} (notPrev : r ≠ p) (notNew : r ≠ b) :
    (link s p b q).block r = s.block r := by
  simp [link, EhMemRun.setNext, Function.update_of_ne notPrev, Function.update_of_ne notNew]

theorem merge_memFreeSize : (merge L s p q).memFreeSize = word (s.memFreeSize + L.headSize) :=
  rfl

end Merge

/-- A free or allocated block: its header and `size` bytes behind it. -/
structure Block where
  addr : Nat
  size : Nat
deriving DecidableEq, Repr

namespace Block

def stop (L : Layout) (b : Block) : Nat := b.addr + b.size + L.headSize

def span (L : Layout) (b : Block) : Span Nat := ⟨b.addr, b.stop L⟩

/-- `a` with its neighbour `b` merged into it. -/
def join (L : Layout) (a b : Block) : Block := ⟨a.addr, a.size + (b.size + L.headSize)⟩

def whole (L : Layout) (b : Block) : Nat := b.size + L.headSize

@[simp] theorem addr_join (L : Layout) (a b : Block) : (a.join L b).addr = a.addr := rfl

theorem stop_join {L : Layout} {a b : Block} (touch : a.stop L = b.addr) :
    (a.join L b).stop L = b.stop L := by
  simp only [stop, join] at *
  omega

end Block

/-- `bs` is the free list of `s`, in address order; neighbours may touch. -/
structure Linked (L : Layout) (s : EhMemRun) (bs : List Block) : Prop where
  path : Path s.next L.firstBlock (L.firstBlock :: bs.map Block.addr) 0
  head_size : s.size L.firstBlock = 0
  sizes : ∀ b ∈ bs, s.size b.addr = b.size
  ordered : bs.Pairwise fun a b => a.stop L ≤ b.addr
  inside : ∀ b ∈ bs, 0 < b.addr ∧ b.addr ≠ L.firstBlock ∧ b.stop L < 2 ^ 64
  free : s.memFreeSize = (bs.map Block.size).sum

/-- `prev_block` and `pos_block` between the parts `l` and `r` of the free list. -/
def prevOf (L : Layout) (l : List Block) : Nat := (l.map Block.addr).getLastD L.firstBlock

def posOf (r : List Block) : Nat := (r.map Block.addr).headD 0

def Apart (L : Layout) (bs : List Block) : Prop :=
  bs.Pairwise fun a b => a.stop L < b.addr

/-- What merging neighbours that touch makes of `bs`. -/
inductive Coalesce (L : Layout) (bs : List Block) : List Block → Prop
  | refl : Coalesce L bs bs
  | join {l r : List Block} {a b : Block} : Coalesce L bs (l ++ a :: b :: r) →
      a.stop L = b.addr → Coalesce L bs (l ++ a.join L b :: r)

namespace Coalesce
variable {L : Layout} {bs cs ds : List Block}

theorem trans (h : Coalesce L bs cs) (k : Coalesce L cs ds) : Coalesce L bs ds := by
  induction k with
  | refl => exact h
  | join _ touch ih => exact .join ih touch

theorem tiles {U : Set Nat} {rest : List (Span Nat)} (h : Coalesce L bs cs)
    (tiles : Tiles U (bs.map (Block.span L) ++ rest)) :
    Tiles U (cs.map (Block.span L) ++ rest) := by
  induction h with
  | refl => exact tiles
  | @join l r a b _ touch ih =>
    have front : ((l ++ a :: b :: r).map (Block.span L) ++ rest).Perm
        (a.span L :: b.span L :: (l.map (Block.span L) ++ r.map (Block.span L) ++ rest)) := by
      simp only [List.map_append, List.map_cons, List.append_assoc, List.cons_append]
      exact List.perm_middle.trans (.cons _ List.perm_middle)
    have joined := ih.perm front
    have whole : (a.join L b).span L = ⟨a.addr, b.stop L⟩ := by
      simp only [Block.span, Block.stop_join touch]
      rfl
    have first : a.span L = ⟨a.addr, b.addr⟩ := by simp only [Block.span, touch]
    rw [first, show b.span L = ⟨b.addr, b.stop L⟩ from rfl, ← Tiles.cut, ← whole] at joined
    · refine joined.perm ?_
      simp only [List.map_append, List.map_cons, List.append_assoc, List.cons_append]
      exact List.perm_middle.symm
    · exact touch ▸ by simp only [Block.stop]; omega
    · simp only [Block.stop]; omega

theorem whole_sum (h : Coalesce L bs cs) :
    (cs.map (Block.whole L)).sum = (bs.map (Block.whole L)).sum ∧ cs.length ≤ bs.length := by
  induction h with
  | refl => exact ⟨rfl, le_refl _⟩
  | join _ _ ih =>
    simp only [List.map_append, List.map_cons, List.sum_append, List.sum_cons, Block.join,
      Block.whole, List.length_append, List.length_cons] at *
    omega

theorem aligned (h : Coalesce L bs cs) (head : L.alignSize ∣ L.headSize)
    (all : ∀ b ∈ bs, L.alignSize ∣ b.addr ∧ L.alignSize ∣ b.size) :
    ∀ b ∈ cs, L.alignSize ∣ b.addr ∧ L.alignSize ∣ b.size := by
  induction h with
  | refl => exact all
  | @join l r a b _ _ ih =>
    have ha := ih a (by simp)
    have hb := ih b (by simp)
    intro c mem
    rcases List.mem_append.mp mem with mem | mem
    · exact ih c (by simp [mem])
    · rcases List.mem_cons.mp mem with rfl | mem
      · exact ⟨ha.1, Nat.dvd_add ha.2 (Nat.dvd_add hb.2 head)⟩
      · exact ih c (by simp [mem])

end Coalesce

theorem sum_room {L : Layout} {bs : List Block} {k n : Nat} (le : k ≤ n)
    (ordered : bs.Pairwise fun a b => a.stop L ≤ b.addr)
    (inside : ∀ b ∈ bs, k ≤ b.addr ∧ b.stop L ≤ n) :
    k + (bs.map Block.size).sum + bs.length * L.headSize ≤ n := by
  induction bs generalizing k with
  | nil => simpa using le
  | cons b bs ih =>
    obtain ⟨first, rest⟩ := List.pairwise_cons.mp ordered
    have here := inside b (by simp)
    have := ih here.2 rest fun c mem => ⟨first c mem, (inside c (by simp [mem])).2⟩
    simp only [List.map_cons, List.sum_cons, List.length_cons, Nat.succ_mul, Block.stop] at *
    omega

namespace Linked
variable {L : Layout} {s : EhMemRun} {bs l r : List Block} {a b : Block}

theorem withCnt (h : Linked L s bs) (n : Nat) : Linked L { s with memUseBlockCnt := n } bs :=
  ⟨h.path, h.head_size, h.sizes, h.ordered, h.inside, h.free⟩

theorem room (h : Linked L s bs) :
    (bs.map Block.size).sum + bs.length * L.headSize < 2 ^ 64 := by
  have := sum_room (k := 0) (n := 2 ^ 64 - 1) (Nat.zero_le _) h.ordered fun b mem =>
    ⟨Nat.zero_le _, Nat.le_sub_one_of_lt (h.inside b mem).2.2⟩
  omega

theorem nodup (h : Linked L s bs) : (L.firstBlock :: bs.map Block.addr).Nodup := by
  refine List.nodup_cons.mpr ⟨fun mem => ?_, List.pairwise_map.mpr (h.ordered.imp ?_)⟩
  · obtain ⟨b, mem, same⟩ := List.mem_map.mp mem
    exact (h.inside b mem).2.1 same
  · intro a b order same
    have := L.sixteen_le_headSize
    simp only [Block.stop] at order
    omega

theorem others (h : Linked L s (l ++ a :: r)) : ∀ c ∈ l ++ r, c.addr ≠ a.addr := by
  have nodup := (List.nodup_cons.mp h.nodup).2
  rw [List.map_append, List.map_cons, List.perm_middle.nodup_iff, ← List.map_append,
    List.nodup_cons] at nodup
  intro c mem same
  exact nodup.1 (same ▸ List.mem_map_of_mem mem)

theorem next_prev (h : Linked L s (l ++ r)) : s.next (prevOf L l) = posOf r := by
  have path := h.path
  rw [List.map_append, ← List.cons_append] at path
  obtain ⟨y, front, back⟩ := Path.append.mp path
  exact front.last.trans back.head

theorem next_mem (h : Linked L s (l ++ a :: r)) : s.next a.addr = posOf r := by
  have := next_prev (l := l ++ [a]) (r := r) (by simpa using h)
  simpa [prevOf] using this

theorem prev_ne (h : Linked L s (l ++ r)) : ∀ c ∈ r, c.addr ≠ prevOf L l := by
  intro c mem same
  have nodup := h.nodup
  rw [List.map_append, ← List.cons_append] at nodup
  exact (List.nodup_append.mp nodup).2.2 _ (List.getLastD_mem_cons ..) _
    (List.mem_map_of_mem mem) same.symm

theorem splice {t : EhMemRun} {m : List Block} (m' : List Block) (h : Linked L s (l ++ (m ++ r)))
    (between : Path t.next (t.next (prevOf L l)) (m'.map Block.addr) (posOf r))
    (next : ∀ y ∈ L.firstBlock :: (l ++ r).map Block.addr, y ≠ prevOf L l →
      t.next y = s.next y)
    (size : ∀ y ∈ L.firstBlock :: (l ++ r).map Block.addr, t.size y = s.size y)
    (sizes : ∀ c ∈ m', t.size c.addr = c.size)
    (ordered : m'.Pairwise fun a b => a.stop L ≤ b.addr)
    (fits : ∀ c ∈ m', (∀ a ∈ l, a.stop L ≤ c.addr) ∧ ∀ d ∈ r, c.stop L ≤ d.addr)
    (inside : ∀ c ∈ m', 0 < c.addr ∧ c.addr ≠ L.firstBlock ∧ c.stop L < 2 ^ 64)
    (free : t.memFreeSize = ((l ++ (m' ++ r)).map Block.size).sum) :
    Linked L t (l ++ (m' ++ r)) where
  path := by
    have nodup := h.nodup
    have path := h.path
    simp only [List.map_append, ← List.cons_append] at path nodup ⊢
    obtain ⟨nodupL, -, apart⟩ := List.nodup_append.mp nodup
    refine path.splice_last between (fun y mem => next y ?_) nodupL fun y mem => next y ?_ ?_
    · simp only [List.map_append, ← List.cons_append]
      exact List.mem_append_left _ mem
    · simp [mem]
    · rintro rfl
      exact apart _ (List.getLastD_mem_cons ..) _ (List.mem_append_right _ mem) rfl
  head_size := (size _ (by simp)).trans h.head_size
  sizes c mem := by
    rcases List.mem_append.mp mem with inL | mem
    · exact (size _ (by simp; grind)).trans (h.sizes c (by simp [inL]))
    rcases List.mem_append.mp mem with inM | inR
    · exact sizes c inM
    · exact (size _ (by simp; grind)).trans (h.sizes c (by simp [inR]))
  ordered := by
    obtain ⟨left, right, between⟩ := List.pairwise_append.mp h.ordered
    obtain ⟨-, right, -⟩ := List.pairwise_append.mp right
    refine List.pairwise_append.mpr ⟨left, List.pairwise_append.mpr ⟨ordered, right, ?_⟩, ?_⟩
    · exact fun c inM d inR => (fits c inM).2 d inR
    · intro a inL c mem
      rcases List.mem_append.mp mem with inM | inR
      · exact (fits c inM).1 a inL
      · exact between a inL c (by simp [inR])
  inside c mem := by
    rcases List.mem_append.mp mem with inL | mem
    · exact h.inside c (by simp [inL])
    rcases List.mem_append.mp mem with inM | inR
    · exact inside c inM
    · exact h.inside c (by simp [inR])
  free := free

theorem merge_spec (h : Linked L s (l ++ a :: b :: r)) (touch : a.stop L = b.addr) :
    Linked L (merge L s a.addr b.addr) (l ++ a.join L b :: r) := by
  have others := h.others
  have room := h.room
  have insideA := h.inside a (by simp)
  have apart : prevOf L l ≠ a.addr := (h.prev_ne a (by simp)).symm
  obtain ⟨left, right, across⟩ := List.pairwise_append.mp h.ordered
  obtain ⟨-, right⟩ := List.pairwise_cons.mp right
  simp only [List.map_append, List.map_cons, List.sum_append, List.sum_cons, List.length_append,
    List.length_cons, Nat.succ_mul, Nat.add_mul] at room
  have same : ∀ y ∈ L.firstBlock :: (l ++ r).map Block.addr, y ≠ a.addr := by
    simp only [List.mem_cons, List.mem_map, List.mem_append]
    rintro y (rfl | ⟨c, inC, rfl⟩)
    · exact insideA.2.1.symm
    · exact others c (by simp; tauto)
  refine splice [a.join L b] (m := [a, b]) h ?_ (fun y mem _ => ?_) (fun y mem => ?_) ?_
    (by simp) ?_ ?_ ?_
  · rw [merge_next, if_neg apart, h.next_prev]
    refine ⟨rfl, ?_⟩
    rw [Block.addr_join, merge_next, if_pos rfl]
    exact next_mem (l := l ++ [a]) (by simpa using h)
  · rw [merge_next, if_neg (same y mem)]
  · rw [merge_size, if_neg (same y mem)]
  · simp only [List.mem_singleton, forall_eq, Block.addr_join, merge_size, if_true]
    rw [h.sizes a (by simp), h.sizes b (by simp), word_of_lt (x := b.size + _) (by omega),
      word_of_lt (by omega)]
    rfl
  · simp only [List.mem_singleton, forall_eq, Block.addr_join, Block.stop_join touch]
    exact ⟨fun c mem => across c mem a (by simp), (List.pairwise_cons.mp right).1⟩
  · simp only [List.mem_singleton, forall_eq, Block.addr_join, Block.stop_join touch]
    exact ⟨insideA.1, insideA.2.1, (h.inside b (by simp)).2.2⟩
  · rw [merge_memFreeSize, h.free]
    simp only [List.map_append, List.map_cons, List.map_nil, List.sum_append, List.sum_cons,
      List.sum_nil, Block.join]
    rw [word_of_lt (by omega)]
    omega

theorem link_spec (h : Linked L s (l ++ r)) (size : s.size b.addr = b.size)
    (inside : 0 < b.addr ∧ b.addr ≠ L.firstBlock ∧ b.stop L < 2 ^ 64)
    (before : ∀ a ∈ l, a.stop L ≤ b.addr) (after : ∀ c ∈ r, b.stop L ≤ c.addr) :
    Linked L (link s (prevOf L l) b.addr (posOf r)) (l ++ b :: r) := by
  have head := L.sixteen_le_headSize
  have same : ∀ y ∈ L.firstBlock :: (l ++ r).map Block.addr, y ≠ b.addr := by
    simp only [List.mem_cons, List.mem_map, List.mem_append]
    rintro y (rfl | ⟨c, inL | inR, rfl⟩)
    · exact inside.2.1.symm
    · have := before c inL
      simp only [Block.stop] at this
      omega
    · have := after c inR
      simp only [Block.stop] at this
      omega
  have apart : prevOf L l ≠ b.addr := by
    refine same _ ?_
    rw [List.map_append, ← List.cons_append]
    exact List.mem_append_left _ (List.getLastD_mem_cons ..)
  have next : ∀ y, (link s (prevOf L l) b.addr (posOf r)).next y =
      if y = b.addr then posOf r else if y = prevOf L l then b.addr else s.next y :=
    fun y => (EhMemRun.setNext_next ..).trans (by rw [EhMemRun.setNext_next])
  have sizes : ∀ y, (link s (prevOf L l) b.addr (posOf r)).size y = s.size y :=
    fun y => (EhMemRun.setNext_size ..).trans (EhMemRun.setNext_size ..)
  have ordered : (l ++ b :: r).Pairwise fun a b => a.stop L ≤ b.addr := by
    obtain ⟨left, right, across⟩ := List.pairwise_append.mp h.ordered
    refine List.pairwise_append.mpr ⟨left, .cons after right, fun a inL c mem => ?_⟩
    rcases List.mem_cons.mp mem with rfl | inR
    · exact before a inL
    · exact across a inL c inR
  have room := sum_room (k := 0) (n := 2 ^ 64 - 1) (Nat.zero_le _) ordered fun c mem => by
    refine ⟨Nat.zero_le _, Nat.le_sub_one_of_lt ?_⟩
    rcases List.mem_append.mp mem with inL | mem
    · exact (h.inside c (by simp [inL])).2.2
    rcases List.mem_cons.mp mem with rfl | inR
    · exact inside.2.2
    · exact (h.inside c (by simp [inR])).2.2
  refine splice [b] (m := []) h ?_ (fun y mem notPrev => ?_) (fun y _ => sizes y) ?_
    (by simp) ?_ ?_ ?_
  · rw [next, if_neg apart, if_pos rfl]
    refine ⟨rfl, ?_⟩
    rw [next, if_pos rfl]
    rfl
  · rw [next, if_neg (same y mem), if_neg notPrev]
  · simpa [sizes] using size
  · simpa using ⟨before, after⟩
  · simpa using inside
  · have total : (link s (prevOf L l) b.addr (posOf r)).memFreeSize =
        word (s.memFreeSize + s.size b.addr) := by
      simp [EventHub.Memory.link]
    rw [total, size, h.free]
    simp only [List.map_append, List.map_cons, List.map_nil, List.sum_append, List.sum_cons,
      List.sum_nil] at room ⊢
    rw [word_of_lt (by omega)]
    omega

theorem touches_iff {q : Nat} (h : Linked L s (l ++ a :: r)) :
    touches L s a.addr q ↔ a.stop L = q := by
  have inside := h.inside a (by simp)
  simp only [touches, h.sizes a (by simp), Block.stop] at *
  rw [word_of_lt (by omega)]

end Linked

end EventHub.Memory
