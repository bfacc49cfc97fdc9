import EventHub.Ringbuf.Draft

/-! Peeks: `eh_ringbuf_peek` and `eh_ringbuf_peek_copy` write nothing to the buffer, and hand out
what a read behind a skip returns. -/

namespace EventHub.Ringbuf
open Library Library.Circular

namespace Stores
variable {rb : EhRingbuf} {f : Fifo UInt8} {R : Nat}

theorem peek_cell (h : Stores rb f R) {offset : Nat} (held : offset ≤ f.queue.length) :
    toUint32 (rb.r + offset) % rb.size = (R + offset) % rb.size := by
  have r_lt : rb.r < 2 * rb.size := h.indices.2.1
  have small := h.small
  have le := h.length_le
  rw [← Int.natCast_add, toUint32_natCast (by omega), Nat.add_mod, h.r_mod, ← Nat.add_mod]

theorem queued (h : Stores rb f R) (offset : Nat) {i : Nat} (held : offset + i < f.queue.length) :
    rb.buf[(R + offset + i) % rb.size]? = f.queue[offset + i]? := by
  have le := h.length_le
  rw [h.cells (R + offset + i) (by omega) (by omega)]
  dsimp only
  rw [Fifo.cells, List.getElem?_append_left (by omega)]
  exact congrArg (f.queue[·]?) (by omega)

theorem copyOut_queued (h : Stores rb f R) {offset len : Nat}
    (held : offset + len ≤ f.queue.length) :
    copyOut rb.size rb.buf ((R + offset) % rb.size) len =
      .ok ((f.queue.drop offset).take len) := by
  have le := h.length_le
  obtain ⟨out, run, length, bytes⟩ := copyOut_spec (T := R + offset) (m := len) h.pos h.small
    h.backing (by omega) (h.cells.mono (by omega) (by omega))
  rw [run]
  refine congrArg Except.ok (List.ext_getElem? fun i => ?_)
  by_cases inside : i < len
  · rw [bytes i inside, List.getElem?_take_of_lt inside, List.getElem?_drop,
      ← h.queued offset (by omega)]
    exact (h.cells (R + offset + i) (by omega) (by omega)).symm
  · rw [List.getElem?_eq_none (by omega), List.getElem?_eq_none (by simp; omega)]

theorem direct_queued (h : Stores rb f R) {offset len : Nat}
    (held : offset + len ≤ f.queue.length) (whole : (R + offset) % rb.size + len ≤ rb.size) :
    (rb.buf.drop ((R + offset) % rb.size)).take len = (f.queue.drop offset).take len := by
  refine List.ext_getElem? fun i => ?_
  by_cases inside : i < len
  · have cell := mod_split (t := R + offset) (d := i) h.pos (by omega)
    rw [List.getElem?_take_of_lt inside, List.getElem?_take_of_lt inside, List.getElem?_drop,
      List.getElem?_drop, ← h.queued offset (by omega)]
    exact congrArg (rb.buf[·]?) (by omega)
  · rw [List.getElem?_eq_none (by simp; omega), List.getElem?_eq_none (by simp; omega)]

theorem skip_read (h : Stores rb f R) {offset len : Nat} (held : offset + len ≤ f.queue.length) :
    ∃ skipped after, ehRingbufReadSkip rb offset = .ok (skipped, (offset : Int)) ∧
      ehRingbufRead skipped len = .ok (after, (len : Int), (f.queue.drop offset).take len) := by
  have granted : ∀ {k m : Nat}, k ≤ m → Fifo.granted k m = k := by
    intro k m le
    unfold Fifo.granted
    omega
  obtain ⟨skipped, S, skip, stored⟩ := h.readSkip offset
  obtain ⟨after, _, read, -⟩ := stored.read len
  rw [granted (by omega)] at skip
  have rest : (f.read offset).queue = f.queue.drop offset := by
    rw [Fifo.read, granted (by omega)]
  have length : (f.queue.drop offset).length = f.queue.length - offset := List.length_drop
  rw [rest, granted (by omega)] at read
  exact ⟨skipped, after, skip, read⟩

end Stores

/-- What `eh_ringbuf_peek` hands out agrees with the reads behind a skip: a copy is of the bytes
asked for, and a span of the buffer is the longest one there, with the bytes of a longer read. -/
def Peek.Agrees (rb skipped : EhRingbuf) (left len : Int) (bytes : List UInt8) : Peek → Prop
  | .copied out => out = bytes
  | .direct offset run =>
    run = min left (rb.size - offset) ∧ len ≤ run ∧
      (rb.buf.drop offset).take len.toNat = bytes ∧
      ∃ after, ehRingbufRead skipped run =
        .ok (after, run, (rb.buf.drop offset).take run.toNat)

/-- A peek succeeds where so many bytes are queued, and gives what a read behind a skip gives. -/
theorem ehRingbufPeek_eq_skip_read {n : Nat} (small : 2 * n ≤ 2 ^ 31 - 1) {rb : EhRingbuf}
    (reached : Reached n rb) (offset len : Int) (forward : 0 ≤ offset) (word : offset < 2 ^ 31)
    (nonneg : 0 ≤ len) :
    ∃ size, ehRingbufSize rb = .ok size ∧
      (size < offset + len → ehRingbufPeekCopy rb offset len = .ok (0, []) ∧
        ehRingbufPeek rb offset len = .ok none) ∧
      (offset + len ≤ size → ∃ skipped after bytes peek,
        ehRingbufReadSkip rb offset = .ok (skipped, offset) ∧
        ehRingbufRead skipped len = .ok (after, len, bytes) ∧
        ehRingbufPeekCopy rb offset len = .ok (len, bytes) ∧
        ehRingbufPeek rb offset len = .ok (some peek) ∧
        peek.Agrees rb skipped (size - offset) len bytes) := by
  obtain ⟨-, f, R, stored⟩ := reached.stores (by omega)
  obtain ⟨o, rfl⟩ := Int.eq_ofNat_of_zero_le forward
  obtain ⟨l, rfl⟩ := Int.eq_ofNat_of_zero_le nonneg
  have le := stored.length_le
  have pos := stored.pos
  have low := stored.small
  have left : int32 ((f.queue.length : Int) - o) = .ok ((f.queue.length : Int) - o) :=
    int32_ok (by omega) (by omega)
  refine ⟨_, stored.size_eq, fun beyond => ?_, fun held => ?_⟩
  · rw [ehRingbufPeekCopy, ehRingbufPeek, stored.size_eq, ok_bind, ok_bind, left, ok_bind, ok_bind,
      if_pos (by omega), if_pos (by omega)]
    exact ⟨rfl, rfl⟩
  · have ahead : o ≤ f.queue.length := by omega
    have behind : o + l ≤ f.queue.length := by omega
    have cell := stored.peek_cell ahead
    have at_lt : (R + o) % rb.size < rb.size := Nat.mod_lt _ pos
    have out := stored.copyOut_queued behind
    obtain ⟨skipped, after, skip, read⟩ := stored.skip_read behind
    have copied : ehRingbufPeekCopy rb o l = .ok ((l : Int), (f.queue.drop o).take l) := by
      rw [ehRingbufPeekCopy, stored.size_eq, ok_bind, left, ok_bind, if_neg (by omega),
        if_neg (by omega)]
      dsimp only
      rw [cell, out]
      rfl
    by_cases whole : (l : Int) ≤ rb.size - ((R + o) % rb.size : Nat)
    · let run := min (f.queue.length - o) (rb.size - (R + o) % rb.size)
      have peeked : ehRingbufPeek rb o l = .ok (some (.direct ((R + o) % rb.size) run)) := by
        rw [ehRingbufPeek, stored.size_eq, ok_bind, left, ok_bind, if_neg (by omega)]
        dsimp only
        rw [cell, int32_ok (by omega) (by omega), ok_bind, if_pos whole]
        refine congrArg (fun run => Except.ok (some (Peek.direct _ run))) ?_
        dsimp only [run]
        split <;> omega
      have near : o + run ≤ f.queue.length := by omega
      obtain ⟨skipped', after', skip', read'⟩ := stored.skip_read near
      cases skip.symm.trans skip'
      refine ⟨skipped, after, _, _, skip, read, copied, peeked, ?_, ?_, ?_, after', ?_⟩
      · omega
      · omega
      · exact stored.direct_queued (by omega) (by omega)
      · rw [read', Int.toNat_natCast, stored.direct_queued (by omega) (by omega)]
    · have peeked : ehRingbufPeek rb o l = .ok (some (.copied ((f.queue.drop o).take l))) := by
        rw [ehRingbufPeek, stored.size_eq, ok_bind, left, ok_bind, if_neg (by omega)]
        dsimp only
        rw [cell, int32_ok (by omega) (by omega), ok_bind, if_neg whole, out]
        rfl
      exact ⟨skipped, after, _, _, skip, read, copied, peeked, rfl⟩

def wrapped : EhRingbuf := ⟨5, 2, 3, [4, 5, 3]⟩

theorem wrapped_reached : Reached 3 wrapped := by
  have fresh : Reached 3 ⟨0, 0, 3, [0, 0, 0]⟩ :=
    .create (show ([0, 0, 0] : List UInt8).length = 3 from rfl) rfl
  have full := fresh.step (rfl : step _ (.write [1, 2, 3] 3 (by decide)) = .ok (_, _))
  have less := full.step (rfl : step _ (.read 2) = .ok (_, _))
  exact less.step (rfl : step _ (.write [4, 5] 2 (by decide)) = .ok (_, _))

theorem ehRingbufPeek_eq_skip_read_wrapped : ∃ skipped after bytes peek,
    ehRingbufReadSkip wrapped 0 = .ok (skipped, 0) ∧
      ehRingbufRead skipped 2 = .ok (after, 2, bytes) ∧
      ehRingbufPeekCopy wrapped 0 2 = .ok (2, bytes) ∧
      ehRingbufPeek wrapped 0 2 = .ok (some peek) ∧
      peek.Agrees wrapped skipped (3 - 0) 2 bytes := by
  obtain ⟨size, eq, -, held⟩ := ehRingbufPeek_eq_skip_read (n := 3) (by decide) wrapped_reached 0 2
    (by decide) (by decide) (by decide)
  cases eq.symm.trans (show ehRingbufSize wrapped = .ok 3 from rfl)
  exact held (by decide)

end EventHub.Ringbuf
