import EventHub.Library.Circular
import EventHub.Library.Fifo
import EventHub.Ringbuf.Buffer

/-! The ring buffer refines a bounded FIFO of bytes.
The two indices are unbounded stream positions `R` and `R + queue length` seen
modulo twice the capacity; byte `t` of the stream is kept in cell `t % n`. -/

namespace EventHub.Ringbuf
open Library Library.Circular

/-- `rb` stores `f`, its oldest byte being byte `R` of the stream. -/
structure Stores (rb : EhRingbuf) (f : Fifo UInt8) (R : Nat) : Prop where
  pos : 0 < rb.size
  small : 2 * rb.size < 2 ^ 31
  capacity : f.capacity = rb.size
  backing : rb.buf.length = rb.size
  r_eq : rb.r = R % (2 * rb.size)
  w_eq : rb.w = (R + f.queue.length) % (2 * rb.size)
  cells : Holds rb.buf rb.size (fun t => f.cells[t - R]?) R (R + rb.size)

theorem double_ok {n : Nat} (small : 2 * n < 2 ^ 31) :
    int32 (2 * (n : Int)) = .ok (2 * (n : Int)) :=
  int32_ok (by omega) (by omega)

theorem sizeOfLoads_spec {n R W : Nat} (pos : 0 < n) (small : 2 * n < 2 ^ 31)
    (le : R ≤ W) (room : W ≤ R + n) :
    sizeOfLoads n (W % (2 * n)) (R % (2 * n)) = .ok ((W - R : Nat) : Int) := by
  have hr : R % (2 * n) < 2 * n := Nat.mod_lt _ (by omega)
  have hw : W % (2 * n) < 2 * n := Nat.mod_lt _ (by omega)
  have apart := mirror_distance pos le room
  unfold sizeOfLoads
  rw [toInt32_toUint32 (by omega) (by omega)]
  dsimp only
  split
  · exact congrArg Except.ok (by omega)
  · rw [double_ok small, ok_bind, int32_ok (by omega) (by omega)]
    exact congrArg Except.ok (by omega)

theorem freeSizeOfLoads_spec {n R W : Nat} (pos : 0 < n) (small : 2 * n < 2 ^ 31)
    (le : R ≤ W) (room : W ≤ R + n) :
    freeSizeOfLoads n (W % (2 * n)) (R % (2 * n)) = .ok ((R + n - W : Nat) : Int) := by
  have hr : R % (2 * n) < 2 * n := Nat.mod_lt _ (by omega)
  have hw : W % (2 * n) < 2 * n := Nat.mod_lt _ (by omega)
  have apart := mirror_distance pos le room
  unfold freeSizeOfLoads
  rw [toInt32_toUint32 (by omega) (by omega)]
  dsimp only
  split
  · rw [int32_ok (by omega) (by omega)]
    exact congrArg Except.ok (by omega)
  · rw [int32_ok (by omega) (by omega), ok_bind, int32_ok (by omega) (by omega)]
    exact congrArg Except.ok (by omega)

/-- Advancing an index by `k` bytes of the stream. -/
theorem ehRingbufFix_spec {n T k : Nat} (pos : 0 < n) (small : 2 * n < 2 ^ 31)
    (hk : k ≤ n) :
    ehRingbufFix n (toUint32 ((T % (2 * n) : Nat) + (k : Int))) =
      .ok ((T + k) % (2 * n)) := by
  have lt : T % (2 * n) < 2 * n := Nat.mod_lt _ (by omega)
  have sum : toUint32 ((T % (2 * n) : Nat) + (k : Int)) = T % (2 * n) + k := by
    unfold toUint32
    omega
  have double : toUint32 (2 * (n : Int)) = 2 * n := by
    unfold toUint32
    omega
  unfold ehRingbufFix
  rw [double_ok small, ok_bind, sum, double, Nat.mod_add_mod]
  rfl

theorem copyIn_spec {n W m : Nat} {buf src : List UInt8} (pos : 0 < n)
    (small : 2 * n < 2 ^ 31) (backing : buf.length = n) (fits : m ≤ n)
    (enough : m ≤ src.length) :
    ∃ out, copyIn n buf (W % n) src m = .ok out ∧ out.length = n ∧
      Holds out n (fun t => src[t - W]?) W (W + m) ∧
      Holds out n (fun t => buf[t % n]?) (W + m) (W + n) := by
  have hw : W % n < n := Nat.mod_lt _ pos
  unfold copyIn
  rw [int32_ok (by omega) (by omega), ok_bind]
  split
  · obtain ⟨out, run, len, at_i⟩ := memcpy_spec
      (show W % n + m ≤ buf.length by omega) (show 0 + m ≤ src.length by omega)
    refine ⟨out, run, by omega, fun t ht ht' => ?_, fun t ht ht' => ?_⟩
    · have cell := mod_split (t := W) (d := t - W) pos (by omega)
      rw [Nat.add_sub_cancel' ht] at cell
      rw [at_i, if_pos (by omega)]
      congr 1
      omega
    · have cell := mod_split (t := W) (d := t - W) pos (by omega)
      rw [Nat.add_sub_cancel' (by omega)] at cell
      rw [at_i, if_neg (by omega)]
  · obtain ⟨mid, run, len, at_i⟩ := memcpy_spec
      (show W % n + (n - W % n) ≤ buf.length by omega)
      (show 0 + (n - W % n) ≤ src.length by omega)
    obtain ⟨out, run', len', at_j⟩ := memcpy_spec
      (show 0 + (m - (n - W % n)) ≤ mid.length by omega)
      (show n - W % n + (m - (n - W % n)) ≤ src.length by omega)
    have first : ((n : Int) - (W % n : Nat)).toNat = n - W % n := by omega
    have second : ((m : Int) - ((n : Int) - (W % n : Nat))).toNat = m - (n - W % n) := by
      omega
    refine ⟨out, ?_, by omega, fun t ht ht' => ?_, fun t ht ht' => ?_⟩
    · rw [first, second, run, ok_bind, run']
    · have cell := mod_split (t := W) (d := t - W) pos (by omega)
      rw [Nat.add_sub_cancel' ht] at cell
      rw [at_j, at_i]
      split_ifs <;> first | omega | (congr 1; omega)
    · have cell := mod_split (t := W) (d := t - W) pos (by omega)
      rw [Nat.add_sub_cancel' (by omega)] at cell
      rw [at_j, at_i, if_neg (by omega), if_neg (by omega)]

theorem copyOut_spec {n T m : Nat} {buf : List UInt8} {f : Nat → Option UInt8}
    (pos : 0 < n) (small : 2 * n < 2 ^ 31) (backing : buf.length = n) (fits : m ≤ n)
    (cells : Holds buf n f T (T + m)) :
    ∃ out, copyOut n buf (T % n) m = .ok out ∧ out.length = m ∧
      ∀ i < m, out[i]? = f (T + i) := by
  have hr : T % n < n := Nat.mod_lt _ pos
  unfold copyOut
  rw [int32_ok (by omega) (by omega), ok_bind]
  split
  · refine ⟨_, memread_ok (by omega), by simp; omega, fun i hi => ?_⟩
    have cell := mod_split (t := T) (d := i) pos (by omega)
    rw [List.getElem?_take_of_lt (by omega), List.getElem?_drop,
      ← cells (T + i) (by omega) (by omega)]
    congr 1
    omega
  · have first : ((n : Int) - (T % n : Nat)).toNat = n - T % n := by omega
    have second : ((m : Int) - ((n : Int) - (T % n : Nat))).toNat = m - (n - T % n) := by
      omega
    rw [first, second, memread_ok (by omega), ok_bind, memread_ok (by omega), ok_bind]
    refine ⟨_, rfl, by simp; omega, fun i hi => ?_⟩
    have cell := mod_split (t := T) (d := i) pos (by omega)
    rw [← cells (T + i) (by omega) (by omega)]
    by_cases early : i < n - T % n
    · rw [List.getElem?_append_left (by simp; omega),
        List.getElem?_take_of_lt early, List.getElem?_drop]
      congr 1
      omega
    · rw [List.getElem?_append_right (by simp; omega), List.getElem?_take_of_lt (by simp; omega),
        List.getElem?_drop]
      congr 1
      simp
      omega

theorem clampLen_of_nonpos {len : Int} {limit : Nat} (h : clampLen len limit ≤ 0) :
    Fifo.granted len limit = 0 := by
  unfold clampLen at h
  unfold Fifo.granted
  split at h <;> omega

theorem clampLen_of_pos {len : Int} {limit : Nat} (h : ¬clampLen len limit ≤ 0) :
    clampLen len limit = Fifo.granted len limit := by
  unfold clampLen at h ⊢
  unfold Fifo.granted
  split <;> omega

namespace Stores
variable {rb : EhRingbuf} {f : Fifo UInt8} {R : Nat}

theorem length_le (h : Stores rb f R) : f.queue.length ≤ rb.size := by
  rw [← h.capacity, Fifo.capacity]
  omega

theorem length_spare (h : Stores rb f R) :
    f.spare.length = rb.size - f.queue.length := by
  rw [← h.capacity, Fifo.capacity]
  omega

theorem size_eq (h : Stores rb f R) :
    ehRingbufSize rb = .ok (f.queue.length : Int) := by
  unfold ehRingbufSize
  rw [h.w_eq, h.r_eq, sizeOfLoads_spec h.pos h.small (by omega) (by have := h.length_le; omega)]
  exact congrArg Except.ok (by omega)

theorem freeSize_eq (h : Stores rb f R) :
    ehRingbufFreeSize rb = .ok (f.spare.length : Int) := by
  have le := h.length_le
  unfold ehRingbufFreeSize
  rw [h.w_eq, h.r_eq, freeSizeOfLoads_spec h.pos h.small (by omega) (by omega)]
  exact congrArg Except.ok (by rw [h.length_spare]; omega)

theorem w_mod (h : Stores rb f R) :
    rb.w % rb.size = (R + f.queue.length) % rb.size := by
  rw [h.w_eq, mirror_mod]

theorem r_mod (h : Stores rb f R) : rb.r % rb.size = R % rb.size := by
  rw [h.r_eq, mirror_mod]

theorem write (h : Stores rb f R) {data : List UInt8} {len : Int}
    (enough : len ≤ data.length) :
    ∃ rb', ehRingbufWrite rb data len =
        .ok (rb', (Fifo.granted len f.spare.length : Int)) ∧
      Stores rb' (f.write data len) R := by
  have held := h.length_le
  have room := Fifo.granted_le len f.spare.length
  have source := Fifo.granted_le_len f.spare.length enough
  have free := h.length_spare
  unfold ehRingbufWrite
  rw [h.freeSize_eq, ok_bind]
  dsimp only
  split
  case isTrue none_taken =>
    have zero := clampLen_of_nonpos none_taken
    have same : f.write data len = f := by
      simp [Fifo.write, zero]
    exact ⟨rb, by rw [zero]; rfl, by rwa [same]⟩
  case isFalse some_taken =>
    obtain ⟨out, run, backing, fresh, kept⟩ :=
      copyIn_spec (W := R + f.queue.length) (m := Fifo.granted len f.spare.length)
        h.pos h.small h.backing (by omega) source
    rw [clampLen_of_pos some_taken, h.w_mod, run, ok_bind, h.w_eq,
      ehRingbufFix_spec h.pos h.small (by omega), ok_bind]
    refine ⟨_, rfl, h.pos, h.small, ?_, backing, h.r_eq, ?_, ?_⟩
    · rw [Fifo.capacity_write enough, h.capacity]
    · rw [Fifo.length_queue_write enough, Nat.add_assoc]
    · intro t ht ht'
      dsimp only at ht' ⊢
      rw [Fifo.getElem?_cells_write enough]
      split
      case isTrue published =>
        rw [fresh t (by omega) (by omega), Nat.sub_sub]
      case isFalse untouched =>
        -- a queued byte is one revolution behind its cell in the copied window
        by_cases queued : t < R + f.queue.length
        · have cell : t % rb.size = (t + rb.size) % rb.size := by simp
          have old := h.cells t ht ht'
          rw [cell] at old ⊢
          exact (kept (t + rb.size) (by omega) (by omega)).trans old
        · rw [kept t (by omega) (by omega)]
          exact h.cells t ht ht'

theorem writeSkip (h : Stores rb f R) (len : Int) :
    ∃ rb', ehRingbufWriteSkip rb len =
        .ok (rb', (Fifo.granted len f.spare.length : Int)) ∧
      Stores rb' (f.writeSkip len) R := by
  have held := h.length_le
  have room := Fifo.granted_le len f.spare.length
  have taken : (f.writeSkip len).queue.length =
      f.queue.length + Fifo.granted len f.spare.length := by
    simp only [Fifo.writeSkip, Fifo.write, List.length_append, List.length_take]
    omega
  have free := h.length_spare
  unfold ehRingbufWriteSkip
  rw [h.freeSize_eq, ok_bind]
  dsimp only
  split
  case isTrue none_taken =>
    have zero := clampLen_of_nonpos none_taken
    have same : f.writeSkip len = f := by
      simp [Fifo.writeSkip, Fifo.write, zero]
    exact ⟨rb, by rw [zero]; rfl, by rwa [same]⟩
  case isFalse some_taken =>
    rw [clampLen_of_pos some_taken, h.w_eq,
      ehRingbufFix_spec h.pos h.small (by omega), ok_bind]
    refine ⟨_, rfl, h.pos, h.small, ?_, h.backing, h.r_eq, ?_, ?_⟩
    · rw [Fifo.capacity_writeSkip, h.capacity]
    · rw [taken, Nat.add_assoc]
    · rw [Fifo.cells_writeSkip]
      exact h.cells

theorem release (h : Stores rb f R) (len : Int) :
    Stores { rb with r := (R + Fifo.granted len f.queue.length) % (2 * rb.size) }
      (f.read len) (R + Fifo.granted len f.queue.length) := by
  have held := h.length_le
  have room := Fifo.granted_le len f.queue.length
  have total : f.cells.length = rb.size := by
    rw [← h.capacity]
    simp [Fifo.cells, Fifo.capacity]
  refine ⟨h.pos, h.small, ?_, h.backing, rfl, ?_, ?_⟩
  · rw [Fifo.capacity_read, h.capacity]
  · rw [h.w_eq, Fifo.length_queue_read]
    congr 1
    omega
  · refine h.cells.turn (by omega) (fun t ht ht' => ?_) (fun t ht ht' => ?_)
    · rw [Fifo.cells_read, List.getElem?_append_left (by simp; omega), List.getElem?_drop]
      congr 1
      omega
    · rw [Fifo.cells_read, List.getElem?_append_right (by simp; omega),
        List.getElem?_take_of_lt (by simp; omega)]
      congr 1
      simp
      omega

theorem read (h : Stores rb f R) (len : Int) :
    ∃ rb' R', ehRingbufRead rb len =
        .ok (rb', (Fifo.granted len f.queue.length : Int),
          f.queue.take (Fifo.granted len f.queue.length)) ∧
      Stores rb' (f.read len) R' := by
  have held := h.length_le
  have room := Fifo.granted_le len f.queue.length
  have released := h.release len
  unfold ehRingbufRead
  rw [h.size_eq, ok_bind]
  dsimp only
  split
  case isTrue none_taken =>
    have zero := clampLen_of_nonpos none_taken
    have same : f.read len = f := by
      simp [Fifo.read, zero]
    exact ⟨rb, R, by rw [zero]; rfl, by rwa [same]⟩
  case isFalse some_taken =>
    obtain ⟨out, run, len_out, at_i⟩ :=
      copyOut_spec (T := R) (m := Fifo.granted len f.queue.length) h.pos h.small
        h.backing (by omega) (h.cells.mono le_rfl (by omega))
    have bytes : out = f.queue.take (Fifo.granted len f.queue.length) := by
      refine List.ext_getElem? fun i => ?_
      by_cases inside : i < Fifo.granted len f.queue.length
      · rw [at_i i inside, Nat.add_sub_cancel_left, Fifo.cells,
          List.getElem?_append_left (by omega), List.getElem?_take_of_lt inside]
      · rw [List.getElem?_eq_none (by omega), List.getElem?_eq_none (by simp; omega)]
    rw [clampLen_of_pos some_taken, h.r_mod, run, ok_bind, h.r_eq,
      ehRingbufFix_spec h.pos h.small (by omega), ok_bind, bytes]
    exact ⟨_, _, rfl, released⟩

theorem readSkip (h : Stores rb f R) (len : Int) :
    ∃ rb' R', ehRingbufReadSkip rb len =
        .ok (rb', (Fifo.granted len f.queue.length : Int)) ∧
      Stores rb' (f.read len) R' := by
  have held := h.length_le
  have room := Fifo.granted_le len f.queue.length
  have released := h.release len
  unfold ehRingbufReadSkip
  rw [h.size_eq, ok_bind]
  dsimp only
  split
  case isTrue none_taken =>
    have zero := clampLen_of_nonpos none_taken
    have same : f.read len = f := by
      simp [Fifo.read, zero]
    exact ⟨rb, R, by rw [zero]; rfl, by rwa [same]⟩
  case isFalse some_taken =>
    rw [clampLen_of_pos some_taken, h.r_eq,
      ehRingbufFix_spec h.pos h.small (by omega), ok_bind]
    exact ⟨_, _, rfl, released⟩

theorem clear (h : Stores rb f R) :
    Stores (ehRingbufClear rb) f.clear (R + f.queue.length) := by
  have released := h.release f.queue.length
  rw [Fifo.granted_self, ← h.w_eq] at released
  exact released

theorem reset (h : Stores rb f R) :
    Stores (ehRingbufReset rb) ⟨[], rb.buf⟩ 0 := by
  refine ⟨h.pos, h.small, ?_, h.backing, by simp [ehRingbufReset],
    by simp [ehRingbufReset], fun t _ ht => ?_⟩
  · simpa [Fifo.capacity, ehRingbufReset] using h.backing
  · rw [Nat.zero_add] at ht
    rw [Nat.mod_eq_of_lt ht]
    simp [Fifo.cells, ehRingbufReset]

theorem indices (h : Stores rb f R) :
    rb.w < 2 * rb.size ∧ rb.r < 2 * rb.size ∧
      (rb.w + 2 * rb.size - rb.r) % (2 * rb.size) = f.queue.length ∧
      f.queue.length ≤ rb.size := by
  have pos := h.pos
  have held := h.length_le
  have hr : rb.r < 2 * rb.size := by
    rw [h.r_eq]
    exact Nat.mod_lt _ (by omega)
  have hw : rb.w < 2 * rb.size := by
    rw [h.w_eq]
    exact Nat.mod_lt _ (by omega)
  have apart := mirror_distance (a := R) (b := R + f.queue.length) pos (by omega) (by omega)
  rw [← h.w_eq, ← h.r_eq, Nat.add_sub_cancel_left] at apart
  refine ⟨hw, hr, ?_, held⟩
  rcases apart with ahead | behind
  · rw [show rb.w + 2 * rb.size - rb.r = f.queue.length + 2 * rb.size by omega,
      Nat.add_mod_right, Nat.mod_eq_of_lt (by omega)]
  · rw [show rb.w + 2 * rb.size - rb.r = f.queue.length by omega,
      Nat.mod_eq_of_lt (by omega)]

end Stores

/-- Calls on one buffer. A writer passes a buffer of at least `len` bytes; the
lengths are any `int32_t`, and larger values change nothing here. -/
inductive Op
  | write (data : List UInt8) (len : Int) (enough : len ≤ data.length)
  | writeSkip (len : Int)
  | read (len : Int)
  | readSkip (len : Int)
  | clear
  | reset

abbrev Returned := Int × List UInt8

def step (rb : EhRingbuf) : Op → Except Fault (EhRingbuf × Returned)
  | .write data len _ => do
    let (rb', wl) ← ehRingbufWrite rb data len
    pure (rb', wl, [])
  | .writeSkip len => do
    let (rb', wl) ← ehRingbufWriteSkip rb len
    pure (rb', wl, [])
  | .read len => ehRingbufRead rb len
  | .readSkip len => do
    let (rb', rl) ← ehRingbufReadSkip rb len
    pure (rb', rl, [])
  | .clear => pure (ehRingbufClear rb, 0, [])
  | .reset => pure (ehRingbufReset rb, 0, [])

def run (rb : EhRingbuf) : List Op → Except Fault (EhRingbuf × List Returned)
  | [] => pure (rb, [])
  | op :: ops => do
    let (rb', out) ← step rb op
    let (rb'', outs) ← run rb' ops
    pure (rb'', out :: outs)

inductive Effect : Fifo UInt8 → Op → Fifo UInt8 → Returned → Prop
  | write (f : Fifo UInt8) (data : List UInt8) (len : Int) (enough : len ≤ data.length) :
      Effect f (.write data len enough) (f.write data len)
        (Fifo.granted len f.spare.length, [])
  | writeSkip (f : Fifo UInt8) (len : Int) :
      Effect f (.writeSkip len) (f.writeSkip len) (Fifo.granted len f.spare.length, [])
  | read (f : Fifo UInt8) (len : Int) :
      Effect f (.read len) (f.read len)
        (Fifo.granted len f.queue.length, f.queue.take (Fifo.granted len f.queue.length))
  | readSkip (f : Fifo UInt8) (len : Int) :
      Effect f (.readSkip len) (f.read len) (Fifo.granted len f.queue.length, [])
  | clear (f : Fifo UInt8) : Effect f .clear f.clear (0, [])
  | reset (f : Fifo UInt8) (spare : List UInt8) (same : spare.length = f.capacity) :
      Effect f .reset ⟨[], spare⟩ (0, [])

inductive Effects : Fifo UInt8 → List Op → Fifo UInt8 → List Returned → Prop
  | nil (f : Fifo UInt8) : Effects f [] f []
  | cons {f g h : Fifo UInt8} {op : Op} {ops : List Op} {out : Returned}
      {outs : List Returned} : Effect f op g out → Effects g ops h outs →
      Effects f (op :: ops) h (out :: outs)

theorem step_refines {rb : EhRingbuf} {f : Fifo UInt8} {R : Nat} (h : Stores rb f R)
    (op : Op) :
    ∃ rb' out f' R', step rb op = .ok (rb', out) ∧ Effect f op f' out ∧
      rb'.size = rb.size ∧ Stores rb' f' R' := by
  have same : ∀ {g : Fifo UInt8} {rb' : EhRingbuf} {R' : Nat},
      g.capacity = f.capacity → Stores rb' g R' → rb'.size = rb.size := by
    intro g rb' R' cap stored
    rw [← stored.capacity, cap, h.capacity]
  cases op with
  | write data len enough =>
    obtain ⟨rb', called, stored⟩ := h.write enough
    exact ⟨rb', _, _, R, by simp only [step, called, ok_bind]; rfl, .write f data len enough,
      same (Fifo.capacity_write enough) stored, stored⟩
  | writeSkip len =>
    obtain ⟨rb', called, stored⟩ := h.writeSkip len
    exact ⟨rb', _, _, R, by simp only [step, called, ok_bind]; rfl, .writeSkip f len,
      same (Fifo.capacity_writeSkip f len) stored, stored⟩
  | read len =>
    obtain ⟨rb', R', called, stored⟩ := h.read len
    exact ⟨rb', _, _, R', called, .read f len, same (Fifo.capacity_read f len) stored, stored⟩
  | readSkip len =>
    obtain ⟨rb', R', called, stored⟩ := h.readSkip len
    exact ⟨rb', _, _, R', by simp only [step, called, ok_bind]; rfl, .readSkip f len,
      same (Fifo.capacity_read f len) stored, stored⟩
  | clear => exact ⟨_, _, _, _, rfl, .clear f, rfl, h.clear⟩
  | reset =>
    exact ⟨_, _, _, _, rfl, .reset f rb.buf (h.backing.trans h.capacity.symm), rfl, h.reset⟩

theorem run_refines {rb : EhRingbuf} {f : Fifo UInt8} {R : Nat} (h : Stores rb f R)
    (ops : List Op) :
    ∃ rb' outs f' R', run rb ops = .ok (rb', outs) ∧ Effects f ops f' outs ∧
      rb'.size = rb.size ∧ Stores rb' f' R' := by
  induction ops generalizing rb f R with
  | nil => exact ⟨rb, [], f, R, rfl, .nil f, rfl, h⟩
  | cons op ops ih =>
    obtain ⟨rb₁, out, f₁, R₁, stepped, effect, size₁, stored₁⟩ := step_refines h op
    obtain ⟨rb₂, outs, f₂, R₂, ran, effects, size₂, stored₂⟩ := ih stored₁
    refine ⟨rb₂, out :: outs, f₂, R₂, ?_, .cons effect effects, size₂.trans size₁, stored₂⟩
    simp only [run, stepped, ok_bind, ran]
    rfl

theorem create_fresh {n : Nat} (pos : 0 < n) (storage : List UInt8) :
    ehRingbufCreate n (some storage) = .ok ⟨0, 0, n, storage⟩ := by
  simp [ehRingbufCreate]
  omega

theorem create_stores {n : Nat} {storage : List UInt8} (pos : 0 < n)
    (small : 2 * n < 2 ^ 31) (backing : storage.length = n) :
    ehRingbufCreate n (some storage) = .ok ⟨0, 0, n, storage⟩ ∧
      Stores ⟨0, 0, n, storage⟩ ⟨[], storage⟩ 0 := by
  refine ⟨create_fresh pos storage, pos, small, ?_, backing, by simp, by simp, fun t _ ht => ?_⟩
  · simpa [Fifo.capacity] using backing
  · rw [Nat.zero_add] at ht
    rw [Nat.mod_eq_of_lt ht]
    simp [Fifo.cells]

/-- Every run from a fresh buffer is a run of the bounded FIFO, returns what the
FIFO returns, and never faults: no byte outside the backing buffer is touched. -/
theorem ehRingbuf_refines_fifo {n : Nat} (pos : 0 < n) (small : 2 * n ≤ 2 ^ 31 - 1)
    {storage : List UInt8} (backing : storage.length = n) (ops : List Op) :
    ∃ rb rb' outs f, ehRingbufCreate n (some storage) = .ok rb ∧
      run rb ops = .ok (rb', outs) ∧ Effects ⟨[], storage⟩ ops f outs ∧
      rb'.w < 2 * n ∧ rb'.r < 2 * n ∧
      (rb'.w + 2 * n - rb'.r) % (2 * n) = f.queue.length ∧ f.queue.length ≤ n ∧
      ehRingbufSize rb' = .ok (f.queue.length : Int) ∧
      ehRingbufFreeSize rb' = .ok ((n : Int) - f.queue.length) ∧
      rb'.buf.length = n := by
  obtain ⟨created, stored⟩ := create_stores pos (by omega) backing
  obtain ⟨rb', outs, f, R, ran, effects, size, stored'⟩ := run_refines stored ops
  obtain ⟨hw, hr, distance, held⟩ := stored'.indices
  have free : ehRingbufFreeSize rb' = .ok ((n : Int) - f.queue.length) := by
    rw [stored'.freeSize_eq, stored'.length_spare]
    exact congrArg Except.ok (by dsimp only at size; omega)
  rw [size] at hw hr distance held
  exact ⟨_, rb', outs, f, created, ran, effects, hw, hr, distance, held,
    stored'.size_eq, free, stored'.backing.trans size⟩

theorem ehRingbuf_refines_fifo_three :
    ∃ rb rb' outs f, ehRingbufCreate (3 : Nat) (some [0, 0, 0]) = .ok rb ∧
      run rb [.write [1, 2, 3, 4] 4 (by decide), .read 2, .write [5, 6] 2 (by decide)] =
        .ok (rb', outs) ∧
      Effects ⟨[], [0, 0, 0]⟩
        [.write [1, 2, 3, 4] 4 (by decide), .read 2, .write [5, 6] 2 (by decide)] f outs ∧
      rb'.w < 2 * 3 ∧ rb'.r < 2 * 3 ∧
      (rb'.w + 2 * 3 - rb'.r) % (2 * 3) = f.queue.length ∧ f.queue.length ≤ 3 ∧
      ehRingbufSize rb' = .ok (f.queue.length : Int) ∧
      ehRingbufFreeSize rb' = .ok (((3 : Nat) : Int) - f.queue.length) ∧
      rb'.buf.length = 3 :=
  ehRingbuf_refines_fifo (n := 3) (by decide) (by decide)
    (show [0, 0, 0].length = 3 from rfl) _

/-- No signed operation overflows in any run from a fresh buffer, and the two sizes are those of
the stored bytes and of the free cells. -/
def SizesSound (n : Nat) : Prop :=
  ∀ (storage : List UInt8) (ops : List Op), storage.length = n →
    ∃ rb rb' outs f, ehRingbufCreate n (some storage) = .ok rb ∧ run rb ops = .ok (rb', outs) ∧
      Effects ⟨[], storage⟩ ops f outs ∧ ehRingbufSize rb' = .ok (f.queue.length : Int) ∧
      f.queue.length ≤ n ∧ ehRingbufFreeSize rb' = .ok ((n : Int) - f.queue.length)

/-- The shift of `eh_ringbuf_fix` overflows at the first byte that is written. -/
theorem run_overflows {n : Nat} {storage : List UInt8} (pos : 0 < n) (word : n ≤ 2 ^ 31 - 1)
    (large : 2 ^ 31 - 1 < 2 * n) (backing : storage.length = n) :
    run ⟨0, 0, n, storage⟩ [.write [0] 1 (by decide)] = .error .signedOverflow := by
  have free : ehRingbufFreeSize ⟨0, 0, n, storage⟩ = .ok (n : Int) := by
    simp only [ehRingbufFreeSize, freeSizeOfLoads]
    rw [show toInt32 (toUint32 (((0 : Nat) : Int) - (0 : Nat))) = 0 from rfl, if_pos le_rfl,
      Int.sub_zero, int32_ok (by omega) (by omega)]
  have clamp : clampLen 1 n = 1 := by
    unfold clampLen
    split <;> omega
  have inside : 0 + 1 ≤ storage.length := by omega
  have whole : 0 + 1 ≤ [(0 : UInt8)].length := by decide
  obtain ⟨out, copy, -⟩ := memcpy_spec inside whole
  have copied : copyIn n storage (0 % n) [0] 1 = .ok out := by
    rw [copyIn, Nat.zero_mod, int32_ok (by omega) (by omega), ok_bind, if_pos (by omega)]
    exact copy
  have fix : ehRingbufFix n (toUint32 ((0 : Nat) + 1)) = .error .signedOverflow := by
    rw [ehRingbufFix, int32, if_neg (by omega)]
    rfl
  have write : ehRingbufWrite ⟨0, 0, n, storage⟩ [0] 1 = .error .signedOverflow := by
    rw [ehRingbufWrite, free, ok_bind]
    dsimp only
    rw [clamp, if_neg (by decide), copied, ok_bind, fix]
    rfl
  rw [run, step, write]
  rfl

theorem not_sizesSound {n : Nat} (pos : 0 < n) (word : n ≤ 2 ^ 31 - 1)
    (large : 2 ^ 31 - 1 < 2 * n) : ¬SizesSound n := fun sound => by
  obtain ⟨rb, rb', outs, f, created, ran, -⟩ := sound (.replicate n 0)
    [.write [0] 1 (by decide)] List.length_replicate
  cases (create_fresh pos _).symm.trans created
  rw [run_overflows pos word large List.length_replicate] at ran
  cases ran

/-- The capacity `2 ^ 30` is accepted, and writing one byte overflows. -/
theorem ehRingbuf_sizes_unsound :
    ehRingbufCreate (1073741824 : Nat) (some (.replicate 1073741824 0)) =
        .ok ⟨0, 0, 1073741824, .replicate 1073741824 0⟩ ∧
      run ⟨0, 0, 1073741824, .replicate 1073741824 0⟩ [.write [0] 1 (by decide)] =
        .error .signedOverflow ∧
      ¬SizesSound 1073741824 :=
  ⟨create_fresh (by decide) _,
    run_overflows (by decide) (by decide) (by decide) List.length_replicate,
    not_sizesSound (by decide) (by decide) (by decide)⟩

/-- Exactly for which of the capacities that `eh_ringbuf_create` accepts the arithmetic is sound. -/
theorem ehRingbuf_sizes_sound_iff {n : Nat} (accepted : 0 < n) (word : n ≤ 2 ^ 31 - 1) :
    SizesSound n ↔ 2 * n ≤ 2 ^ 31 - 1 := by
  constructor
  · intro sound
    by_contra large
    exact not_sizesSound accepted word (by omega) sound
  · intro small storage ops backing
    obtain ⟨created, stored⟩ := create_stores accepted (by omega) backing
    obtain ⟨rb', outs, f, R, ran, effects, size, stored'⟩ := run_refines stored ops
    have capacity : rb'.size = n := size
    have held := stored'.length_le
    refine ⟨_, rb', outs, f, created, ran, effects, stored'.size_eq, by omega, ?_⟩
    rw [stored'.freeSize_eq, stored'.length_spare]
    exact congrArg Except.ok (by omega)

theorem ehRingbuf_sizes_sound_iff_three : SizesSound 3 :=
  (ehRingbuf_sizes_sound_iff (by decide) (by decide)).mpr (by decide)

end EventHub.Ringbuf
