import EventHub.Ringbuf.Queue

/-! Drafts: the bytes that a producer puts into the free cells before it publishes them. A buffer
may come from any calls, drafts of its unread bytes among them. -/

namespace EventHub.Ringbuf
open Library Library.Circular

inductive Reached (n : Nat) : EhRingbuf → Prop
  | create {storage : List UInt8} {rb : EhRingbuf} : storage.length = n →
      ehRingbufCreate n (some storage) = .ok rb → Reached n rb
  | step {rb rb' : EhRingbuf} {op : Op} {out : Returned} : Reached n rb →
      step rb op = .ok (rb', out) → Reached n rb'
  | draft {rb rb' : EhRingbuf} {offset len wl : Int} {data : List UInt8} : Reached n rb →
      ehRingbufDraftWrite rb offset data len = .ok (rb', wl) → Reached n rb'

theorem memcpy_length {α : Type*} {dst src out : List α} {pos off len : Nat}
    (run : memcpy dst pos src off len = .ok out) : out.length = dst.length := by
  rw [memcpy] at run
  split at run
  · next bounds =>
    cases run
    simp only [List.length_append, List.length_take, List.length_drop]
    omega
  · cases run

theorem copyIn_length {size w : Nat} {buf src out : List UInt8} {wl : Int}
    (run : copyIn size buf w src wl = .ok out) : out.length = buf.length := by
  rw [copyIn] at run
  cases first : int32 ((size : Int) - w) with
  | error e =>
    rw [first] at run
    cases run
  | ok max =>
    rw [first, ok_bind] at run
    split at run
    · exact memcpy_length run
    · cases copy : memcpy buf w src 0 max.toNat with
      | error e =>
        rw [copy] at run
        cases run
      | ok mid =>
        rw [copy, ok_bind] at run
        exact (memcpy_length run).trans (memcpy_length copy)

theorem ehRingbufDraftWrite_buf {rb rb' : EhRingbuf} {offset len wl : Int} {data : List UInt8}
    (run : ehRingbufDraftWrite rb offset data len = .ok (rb', wl)) :
    ∃ buf, buf.length = rb.buf.length ∧ rb' = { rb with buf := buf } := by
  rw [ehRingbufDraftWrite] at run
  cases room : ehRingbufFreeSize rb with
  | error e =>
    rw [room] at run
    cases run
  | ok free =>
    rw [room, ok_bind] at run
    cases rest : int32 (free - offset) with
    | error e =>
      rw [rest] at run
      cases run
    | ok left =>
      rw [rest, ok_bind] at run
      dsimp only at run
      split at run
      · cases run
        exact ⟨rb.buf, rfl, rfl⟩
      · cases copy : copyIn rb.size rb.buf (toUint32 (rb.w + offset) % rb.size) data
            (clampLen len left) with
        | error e =>
          rw [copy] at run
          cases run
        | ok out =>
          rw [copy] at run
          cases run
          exact ⟨out, copyIn_length copy, rfl⟩

namespace Stores
variable {rb : EhRingbuf} {f : Fifo UInt8} {R : Nat}

theorem rebuf (h : Stores rb f R) {buf : List UInt8} (same : buf.length = rb.buf.length) :
    ∃ g, Stores { rb with buf := buf } g R := by
  let cells := (List.range rb.size).map fun i => buf.getD ((R + i) % rb.size) 0
  have total : cells.length = rb.size := by simp [cells]
  have held := h.length_le
  have taken : (cells.take f.queue.length).length = f.queue.length := by simp; omega
  refine ⟨⟨cells.take f.queue.length, cells.drop f.queue.length⟩, h.pos, h.small, ?_,
    same.trans h.backing, h.r_eq, ?_, fun t ht ht' => ?_⟩
  · simp only [Fifo.capacity, taken, List.length_drop]
    omega
  · rw [taken]
    exact h.w_eq
  · dsimp only at ht' ⊢
    have cell : t % rb.size < buf.length := by
      rw [same, h.backing]
      exact Nat.mod_lt _ h.pos
    rw [Fifo.cells, List.take_append_drop, List.getElem?_map, List.getElem?_range (by omega),
      Option.map_some, Nat.add_sub_cancel' ht, List.getD_eq_getElem?_getD,
      List.getElem?_eq_getElem cell]
    rfl

theorem draftWrite (h : Stores rb f R) {data : List UInt8} {offset : Nat} {len : Int}
    (word : offset < 2 ^ 31) (enough : len ≤ data.length) :
    ∃ buf, ehRingbufDraftWrite rb offset data len =
        .ok ({ rb with buf := buf }, (Fifo.granted len (f.spare.length - offset) : Int)) ∧
      Stores { rb with buf := buf }
        (f.fill offset (data.take (Fifo.granted len (f.spare.length - offset)))) R := by
  have held := h.length_le
  have room := Fifo.granted_le len (f.spare.length - offset)
  have source := Fifo.granted_le_len (f.spare.length - offset) enough
  have free := h.length_spare
  have pos := h.pos
  have small := h.small
  unfold ehRingbufDraftWrite
  rw [h.freeSize_eq, ok_bind, int32_ok (by omega) (by omega), ok_bind]
  dsimp only
  split
  case isTrue none_taken =>
    have zero : Fifo.granted len (f.spare.length - offset) = 0 := by
      unfold clampLen at none_taken
      unfold Fifo.granted
      split at none_taken <;> omega
    refine ⟨rb.buf, by rw [zero]; rfl, ?_⟩
    rw [zero, List.take_zero, Fifo.fill_nil]
    exact h
  case isFalse some_taken =>
    have inside : offset < f.spare.length := by
      unfold clampLen at some_taken
      split at some_taken <;> omega
    have limit : ((f.spare.length : Int) - offset) = ((f.spare.length - offset : Nat) : Int) := by
      omega
    rw [limit] at some_taken ⊢
    have w_lt : rb.w < 2 * rb.size := h.indices.1
    have cell : toUint32 (rb.w + offset) % rb.size =
        (R + f.queue.length + offset) % rb.size := by
      rw [← Int.natCast_add, toUint32_natCast (by omega), Nat.add_mod, h.w_mod, ← Nat.add_mod]
    obtain ⟨out, run, backing, fresh, kept⟩ :=
      copyIn_spec (W := R + f.queue.length + offset)
        (m := Fifo.granted len (f.spare.length - offset)) pos small h.backing (by omega) source
    have taken : (data.take (Fifo.granted len (f.spare.length - offset))).length =
        Fifo.granted len (f.spare.length - offset) := by simp; omega
    rw [clampLen_of_pos some_taken, cell, run, ok_bind]
    refine ⟨out, rfl, pos, small, ?_, backing, h.r_eq, h.w_eq, fun t ht ht' => ?_⟩
    · rw [Fifo.capacity, Fifo.length_spare_fill (by omega)]
      exact h.capacity
    · dsimp only at ht' ⊢
      rw [Fifo.getElem?_cells_fill (by omega), taken]
      split
      case isTrue drafted =>
        rw [fresh t (by omega) (by omega), List.getElem?_take_of_lt (by omega)]
        exact congrArg (data[·]?) (by omega)
      case isFalse untouched =>
        -- a cell before the draft is one revolution behind its place in the copied window
        by_cases before : t < R + f.queue.length + offset
        · have same : t % rb.size = (t + rb.size) % rb.size := by simp
          have old := h.cells t ht ht'
          rw [same] at old ⊢
          exact (kept (t + rb.size) (by omega) (by omega)).trans old
        · rw [kept t (by omega) (by omega)]
          exact h.cells t ht ht'

theorem same_reads {rb' : EhRingbuf} {g : Fifo UInt8} {S : Nat} (h : Stores rb f R)
    (h' : Stores rb' g S) (queue : g.queue = f.queue) (len : Int) :
    (ehRingbufRead rb' len).map Prod.snd = (ehRingbufRead rb len).map Prod.snd := by
  obtain ⟨_, _, run, -⟩ := h.read len
  obtain ⟨_, _, run', -⟩ := h'.read len
  rw [run, run', queue]
  rfl

end Stores

theorem Reached.stores {n : Nat} (small : 2 * n < 2 ^ 31) {rb : EhRingbuf}
    (reached : Reached n rb) : rb.size = n ∧ ∃ f R, Stores rb f R := by
  induction reached with
  | create backing created =>
    rw [ehRingbufCreate] at created
    split at created
    · cases created
    · next pos =>
      cases created
      exact ⟨by simp, _, _, (create_stores (by omega) small backing).2⟩
  | step _ stepped ih =>
    obtain ⟨size, f, R, stored⟩ := ih
    obtain ⟨rb', out, f', R', run, -, size', stored'⟩ := step_refines stored _
    cases run.symm.trans stepped
    exact ⟨size'.trans size, f', R', stored'⟩
  | draft _ drafted ih =>
    obtain ⟨size, f, R, stored⟩ := ih
    obtain ⟨buf, same, rfl⟩ := ehRingbufDraftWrite_buf drafted
    obtain ⟨g, stored'⟩ := stored.rebuf same
    exact ⟨size, g, R, stored'⟩

structure Piece where
  offset : Nat
  len : Nat
deriving DecidableEq

def Piece.bytes (p : Piece) (d : List UInt8) : List UInt8 := (d.drop p.offset).take p.len

/-- The pieces of `d` are drafted one after the other; what the calls return. -/
def drafts (d : List UInt8) (rb : EhRingbuf) : List Piece → Except Fault (EhRingbuf × List Int)
  | [] => pure (rb, [])
  | p :: ps => do
    let (rb', wl) ← ehRingbufDraftWrite rb p.offset (p.bytes d) p.len
    let (rb'', wls) ← drafts d rb' ps
    pure (rb'', wl :: wls)

theorem drafts_spec {d : List UInt8} {rb : EhRingbuf} {f : Fifo UInt8} {R : Nat}
    (h : Stores rb f R) (fits : d.length ≤ f.spare.length) (ps : List Piece)
    (inside : ∀ p ∈ ps, p.offset + p.len ≤ d.length) :
    ∃ buf g, drafts d rb ps = .ok ({ rb with buf := buf }, ps.map fun p => (p.len : Int)) ∧
      Stores { rb with buf := buf } g R ∧ g.queue = f.queue ∧
      g.spare.length = f.spare.length ∧
      ∀ i, g.spare[i]? = d[i]? ∨ g.spare[i]? = f.spare[i]? ∧
        ∀ p ∈ ps, ¬(p.offset ≤ i ∧ i < p.offset + p.len) := by
  induction ps generalizing rb f with
  | nil => exact ⟨rb.buf, f, rfl, h, rfl, rfl, fun i => .inr ⟨rfl, by simp⟩⟩
  | cons p ps ih =>
    have within := inside p (by simp)
    have spare := h.length_spare
    have small := h.small
    have length : (p.bytes d).length = p.len := by
      simp only [Piece.bytes, List.length_take, List.length_drop]
      omega
    have granted : Fifo.granted p.len (f.spare.length - p.offset) = p.len := by
      unfold Fifo.granted
      omega
    have word : p.offset < 2 ^ 31 := by omega
    have enough : (p.len : Int) ≤ (p.bytes d).length := by omega
    obtain ⟨buf, run, stored⟩ := h.draftWrite word enough
    rw [granted] at run stored
    rw [show (p.bytes d).take p.len = p.bytes d by rw [← length, List.take_length]] at stored
    have spare_holds : p.offset + (p.bytes d).length ≤ f.spare.length := by omega
    have same := Fifo.length_spare_fill spare_holds
    obtain ⟨buf', g, more, stored', queue, total, cells⟩ := ih stored (by omega)
      fun q mem => inside q (by simp [mem])
    refine ⟨buf', g, ?_, stored', queue, total.trans same, fun i => ?_⟩
    · simp only [drafts, run, ok_bind, more]
      rfl
    · rcases cells i with new | ⟨old, others⟩
      · exact .inl new
      · rw [Fifo.getElem?_spare_fill (by omega), length] at old
        split at old
        · next covered =>
          refine .inl (old.trans ?_)
          rw [Piece.bytes, List.getElem?_take_of_lt (by omega), List.getElem?_drop]
          congr 1
          omega
        · next apart =>
          refine .inr ⟨old, fun q mem => ?_⟩
          rcases List.mem_cons.mp mem with rfl | mem
          · exact apart
          · exact others q mem

structure SameView (rb rb' : EhRingbuf) : Prop where
  w : rb'.w = rb.w
  r : rb'.r = rb.r
  size : ehRingbufSize rb' = ehRingbufSize rb
  freeSize : ehRingbufFreeSize rb' = ehRingbufFreeSize rb
  read : ∀ len, (ehRingbufRead rb' len).map Prod.snd = (ehRingbufRead rb len).map Prod.snd

theorem Stores.sameView {rb rb' : EhRingbuf} {f g : Fifo UInt8} {R : Nat} (h : Stores rb f R)
    (h' : Stores rb' g R) (size : rb'.size = rb.size) (queue : g.queue = f.queue) :
    SameView rb rb' where
  w := by rw [h.w_eq, h'.w_eq, size, queue]
  r := by rw [h.r_eq, h'.r_eq, size]
  size := by rw [h.size_eq, h'.size_eq, queue]
  freeSize := by rw [h.freeSize_eq, h'.freeSize_eq, h.length_spare, h'.length_spare, size, queue]
  read := h.same_reads h' queue

theorem memcpy_take {α : Type*} {dst src : List α} {pos off len k : Nat} (part : off + len ≤ k)
    (whole : k ≤ src.length) :
    memcpy dst pos (src.take k) off len = memcpy dst pos src off len := by
  have length : (src.take k).length = k := List.length_take_of_le whole
  have bytes : ((src.take k).drop off).take len = (src.drop off).take len := by
    rw [List.drop_take, List.take_take, Nat.min_eq_left (by omega)]
  simp only [memcpy, length, bytes]
  by_cases fits : pos + len ≤ dst.length
  · rw [if_pos ⟨fits, part⟩, if_pos ⟨fits, by omega⟩]
  · rw [if_neg (fun both => fits both.1), if_neg (fun both => fits both.1)]

theorem copyIn_take {size w : Nat} {buf src : List UInt8} {k : Nat} (inside : w ≤ size)
    (whole : k ≤ src.length) :
    copyIn size buf w (src.take k) k = copyIn size buf w src k := by
  rw [copyIn, copyIn]
  cases room : int32 ((size : Int) - w) with
  | error e => rfl
  | ok max =>
    have exact : max = size - w := by
      rw [int32] at room
      split at room <;> cases room
      rfl
    rw [ok_bind, ok_bind]
    split
    · exact memcpy_take (by omega) whole
    · rw [memcpy_take (by omega) whole]
      refine bind_congr fun first => ?_
      exact memcpy_take (by omega) whole

theorem Stores.draftWrite_take {rb : EhRingbuf} {f : Fifo UInt8} {R : Nat} (h : Stores rb f R)
    {data : List UInt8} {offset : Nat} {len : Int} (past : f.spare.length < offset + len)
    (enough : len ≤ data.length) :
    ehRingbufDraftWrite rb offset (data.take (f.spare.length - offset))
        (f.spare.length - offset : Nat) = ehRingbufDraftWrite rb offset data len := by
  have cell : ∀ x, x % rb.size ≤ rb.size := fun x => (Nat.mod_lt x h.pos).le
  unfold ehRingbufDraftWrite
  rw [h.freeSize_eq, ok_bind, ok_bind]
  cases rest : int32 ((f.spare.length : Int) - offset) with
  | error e => rfl
  | ok room =>
    have exact : room = f.spare.length - offset := by
      rw [int32] at rest
      split at rest <;> cases rest
      rfl
    have clamp : clampLen len room = room := by
      unfold clampLen
      split <;> omega
    rw [ok_bind, ok_bind, clamp]
    by_cases none : room ≤ 0
    · have clamp' : clampLen (f.spare.length - offset : Nat) room ≤ 0 := by
        unfold clampLen
        split <;> omega
      rw [if_pos none, if_pos clamp']
    · have same : room = (f.spare.length - offset : Nat) := by omega
      have clamp' : clampLen (f.spare.length - offset : Nat) room = room := by
        unfold clampLen
        split <;> omega
      rw [clamp', if_neg none, if_neg none, same]
      dsimp only
      rw [copyIn_take (cell _) (by omega)]

/-- Drafts change nothing that shows, and once they cover a string and it is published, the buffer
is as after one write of it. A draft that goes beyond the free cells is one of the part that fits. -/
theorem ehRingbufDraftWrite_commits {n : Nat} (small : 2 * n ≤ 2 ^ 31 - 1) {rb : EhRingbuf}
    (reached : Reached n rb) :
    ∃ free : Nat, ehRingbufFreeSize rb = .ok (free : Int) ∧
      (∀ (d : List UInt8) (ps : List Piece), d.length ≤ free →
        (∀ p ∈ ps, p.offset + p.len ≤ d.length) →
        ∃ drafted, drafts d rb ps = .ok (drafted, ps.map fun p => (p.len : Int)) ∧
          SameView rb drafted ∧
          ((∀ i < d.length, ∃ p ∈ ps, p.offset ≤ i ∧ i < p.offset + p.len) →
            ∃ committed written,
              ehRingbufWriteSkip drafted d.length = .ok (committed, (d.length : Int)) ∧
              ehRingbufWrite rb d d.length = .ok (written, (d.length : Int)) ∧
              SameView written committed)) ∧
      ∀ (data : List UInt8) (offset len : Int), 0 ≤ offset → offset < 2 ^ 31 →
        free < offset + len → len ≤ data.length →
        ∃ drafted, ehRingbufDraftWrite rb offset data len =
            .ok (drafted, ((free - offset).toNat : Int)) ∧
          ehRingbufDraftWrite rb offset (data.take (free - offset).toNat)
            (free - offset).toNat = .ok (drafted, ((free - offset).toNat : Int)) ∧
          SameView rb drafted := by
  obtain ⟨size, f, R, stored⟩ := reached.stores (by omega)
  refine ⟨f.spare.length, stored.freeSize_eq, fun d ps fits inside => ?_,
    fun data offset len forward word past enough => ?_⟩
  · obtain ⟨buf, g, run, stored', queue, total, cells⟩ := drafts_spec stored fits ps inside
    refine ⟨_, run, stored.sameView stored' rfl queue, fun covered => ?_⟩
    have all : g.spare.take d.length = d := by
      refine List.ext_getElem? fun i => ?_
      by_cases within : i < d.length
      · rw [List.getElem?_take_of_lt within]
        refine (cells i).resolve_right fun untouched => ?_
        obtain ⟨p, mem, covers⟩ := covered i within
        exact untouched.2 p mem covers
      · rw [List.getElem?_eq_none (by simp; omega), List.getElem?_eq_none (by omega)]
    have granted : ∀ k, d.length ≤ k → Fifo.granted d.length k = d.length := by
      intro k le
      unfold Fifo.granted
      omega
    obtain ⟨committed, commit, last⟩ := stored'.writeSkip d.length
    obtain ⟨written, write, last'⟩ := stored.write (le_refl (d.length : Int))
    rw [granted _ (by omega)] at commit write
    refine ⟨committed, written, commit, write, last'.sameView last ?_ ?_⟩
    · rw [← last.capacity, ← last'.capacity, Fifo.capacity_writeSkip, Fifo.capacity_write le_rfl,
        stored'.capacity, stored.capacity]
    · rw [Fifo.writeSkip, Fifo.write, Fifo.write, granted _ (by omega), granted _ (by omega), queue,
        all, List.take_length]
  · obtain ⟨k, rfl⟩ := Int.eq_ofNat_of_zero_le forward
    have fit : ((f.spare.length : Int) - k).toNat = f.spare.length - k := by omega
    have granted : Fifo.granted len (f.spare.length - k) = f.spare.length - k := by
      unfold Fifo.granted
      omega
    rw [fit]
    have word : k < 2 ^ 31 := by omega
    obtain ⟨buf, run, stored'⟩ := stored.draftWrite word enough
    rw [granted] at run
    refine ⟨_, run, ?_, stored.sameView stored' rfl rfl⟩
    rw [← run]
    exact stored.draftWrite_take past enough

def halfRead : EhRingbuf := ⟨5, 4, 3, [4, 5, 3]⟩

theorem halfRead_reached : Reached 3 halfRead := by
  have fresh : Reached 3 ⟨0, 0, 3, [0, 0, 0]⟩ :=
    .create (show ([0, 0, 0] : List UInt8).length = 3 from rfl) rfl
  have full := fresh.step (rfl : step _ (.write [1, 2, 3] 3 (by decide)) = .ok (_, _))
  have less := full.step (rfl : step _ (.read 2) = .ok (_, _))
  have again := less.step (rfl : step _ (.write [4, 5] 2 (by decide)) = .ok (_, _))
  exact again.step (rfl : step _ (.readSkip 2) = .ok (_, _))

theorem ehRingbufDraftWrite_commits_halfRead : ∃ drafted committed written,
    drafts [6, 7] halfRead [⟨1, 1⟩, ⟨0, 2⟩] = .ok (drafted, [1, 2]) ∧
      ehRingbufWriteSkip drafted 2 = .ok (committed, 2) ∧
      ehRingbufWrite halfRead [6, 7] 2 = .ok (written, 2) ∧ SameView written committed := by
  obtain ⟨free, eq, commits, -⟩ :=
    ehRingbufDraftWrite_commits (n := 3) (by decide) halfRead_reached
  have two : free = 2 := by
    have rest : (2 : Int) = free := Except.ok.inj
      ((show ehRingbufFreeSize halfRead = .ok 2 from rfl).symm.trans eq)
    omega
  subst two
  obtain ⟨drafted, run, -, covered⟩ := commits [6, 7] [⟨1, 1⟩, ⟨0, 2⟩] (by decide) (by decide)
  obtain ⟨committed, written, commit, write, same⟩ := covered (by decide)
  exact ⟨drafted, committed, written, run, commit, write, same⟩

end EventHub.Ringbuf
