import EventHub.Ringbuf.Concurrent
import EventHub.Ringbuf.Queue

/-! Safety of one producer and one consumer in every interleaving.
`R` bytes are released and `W` published; each index in memory is its stream
position modulo twice the capacity. A side works from an old copy of the other
index, which only understates its room: `R` and `W` never go back. -/

namespace EventHub.Ringbuf.Concurrent
open Library Library.Circular

/-- `wl` bytes at distance `offset` past `W` lie in the producer's room. -/
structure Room (n R W : Nat) (c : WriteCall) (wl : Int) : Prop where
  pos : 0 < wl
  offset : 0 ≤ c.offset
  fits : (W : Int) + c.offset + wl ≤ R + n

def ProducerInv (n R W : Nat) (buf : List UInt8) : Producer → Prop
  | .idle => True
  | .loadR c w => w = W % (2 * n) ∧ 0 ≤ c.offset ∧ c.offset < 2 ^ 31
  | .loadBase c wl => Room n R W c wl ∧ wl ≤ c.data.length
  | .copy c wl base i =>
    Room n R W c wl ∧ wl ≤ c.data.length ∧ base = (W + c.offset.toNat) % n ∧
      (i : Int) ≤ wl ∧
      ∀ j < i, buf[(W + c.offset.toNat + j) % n]? = c.data[j]?
  | .loadW c wl =>
    Room n R W c wl ∧ ∀ data len enough, c = .write data len enough →
      wl ≤ data.length ∧ ∀ j : Nat, (j : Int) < wl → buf[(W + j) % n]? = data[j]?
  | .storeW c wl value =>
    Room n R W c wl ∧ value = (W + wl.toNat) % (2 * n) ∧
      ∀ data len enough, c = .write data len enough →
        wl ≤ data.length ∧ ∀ j : Nat, (j : Int) < wl → buf[(W + j) % n]? = data[j]?

def ConsumerInv (n R W : Nat) (published : List UInt8) : Consumer → Prop
  | .idle => True
  | .loadR c w =>
    (0 ≤ c.offset ∧ c.offset < 2 ^ 31 ∧ ∀ offset len, c = .peekCopy offset len → 0 ≤ len) ∧
      ∃ W₀, w = W₀ % (2 * n) ∧ R ≤ W₀ ∧ W₀ ≤ W
  | .loadBase c left rl =>
    0 ≤ c.offset ∧ rl ≤ left ∧ (R : Int) + c.offset + left ≤ W ∧
      ((∀ offset len, c ≠ .peek offset len) → 0 ≤ rl)
  | .copy c rl base i got =>
    0 ≤ c.offset ∧ (R : Int) + c.offset + rl ≤ W ∧ base = (R + c.offset.toNat) % n ∧
      (i : Int) ≤ rl ∧ got = (published.drop (R + c.offset.toNat)).take i
  | .loadR' _ rl got =>
    0 ≤ rl ∧ (R : Int) + rl ≤ W ∧ got = (published.drop R).take rl.toNat
  | .storeR value taken =>
    R + taken.length ≤ W ∧ value = (R + taken.length) % (2 * n) ∧
      taken = (published.drop R).take taken.length

def SpanInv (n R W : Nat) (span : Nat × Int) : Prop :=
  0 < span.2 → ∃ T, R ≤ T ∧ (T : Int) + span.2 ≤ W ∧ span.1 = T % n ∧
    (span.1 : Int) + span.2 ≤ n

structure Inv (n : Nat) (s : State) : Prop where
  pos : 0 < n
  small : 2 * n < 2 ^ 31
  backing : s.buf.length = n
  le : s.consumed.length ≤ s.published.length
  room : s.published.length ≤ s.consumed.length + n
  w_eq : s.w = s.published.length % (2 * n)
  r_eq : s.r = s.consumed.length % (2 * n)
  intact : Holds s.buf n (fun t => s.published[t]?) s.consumed.length s.published.length
  in_order : s.consumed = s.published.take s.consumed.length
  producer : ProducerInv n s.consumed.length s.published.length s.buf s.producer
  consumer : ConsumerInv n s.consumed.length s.published.length s.published s.consumer
  lent : ∀ span ∈ s.lent, SpanInv n s.consumed.length s.published.length span

/-- Arguments for which the calls of the two sides are meant: no offset is
negative, and `eh_ringbuf_peek_copy` is not asked for a negative length. -/
def Label.Meant : Label → Prop
  | .write c => 0 ≤ c.offset ∧ c.offset < 2 ^ 31
  | .read c => 0 ≤ c.offset ∧ c.offset < 2 ^ 31 ∧
      ∀ offset len, c = .peekCopy offset len → 0 ≤ len
  | .producer | .consumer => True

theorem cellOf_eq {n T i : Nat} (pos : 0 < n) (hi : i ≤ n) :
    cellOf n (T % n) i = (T + i) % n := by
  have split := mod_split (t := T) (d := i) pos hi
  have lt : T % n < n := Nat.mod_lt _ pos
  unfold cellOf
  split <;> omega

theorem getElem?_bytesFrom {n W i k : Nat} {buf : List UInt8} (pos : 0 < n)
    (backing : buf.length = n) (hi : i < k) :
    (bytesFrom n buf (W % (2 * n)) k)[i]? = buf[(W + i) % n]? := by
  have cell : (W % (2 * n) + i) % n = (W + i) % n := by
    rw [Nat.add_mod, mirror_mod, ← Nat.add_mod]
  have lt : (W + i) % n < buf.length := by
    rw [backing]
    exact Nat.mod_lt _ pos
  simp [bytesFrom, hi, cell, List.getD_eq_getElem?_getD, List.getElem?_eq_getElem lt]

theorem length_bytesFrom (n : Nat) (buf : List UInt8) (start k : Nat) :
    (bytesFrom n buf start k).length = k := by
  simp [bytesFrom]

theorem bytesFrom_eq {n R W k : Nat} {buf published : List UInt8} (pos : 0 < n)
    (backing : buf.length = n)
    (intact : Holds buf n (fun t => published[t]?) R W) (hk : R + k ≤ W) :
    bytesFrom n buf (R % (2 * n)) k = (published.drop R).take k := by
  refine List.ext_getElem? fun i => ?_
  by_cases inside : i < k
  · rw [getElem?_bytesFrom pos backing inside, intact (R + i) (by omega) (by omega),
      List.getElem?_take_of_lt inside, List.getElem?_drop]
  · rw [List.getElem?_eq_none (by rw [length_bytesFrom]; omega),
      List.getElem?_eq_none (by simp; omega)]

theorem take_drop_append {xs ys : List UInt8} {a k : Nat} (h : a + k ≤ xs.length) :
    ((xs ++ ys).drop a).take k = (xs.drop a).take k := by
  rw [List.drop_append_of_le_length (by omega),
    List.take_append_of_le_length (by simp; omega)]

theorem Room.mono {n R R' W : Nat} {c : WriteCall} {wl : Int} (h : Room n R W c wl)
    (le : R ≤ R') : Room n R' W c wl :=
  ⟨h.pos, h.offset, by have := h.fits; omega⟩

theorem ProducerInv.release {n R R' W : Nat} {buf : List UInt8} {p : Producer}
    (h : ProducerInv n R W buf p) (le : R ≤ R') : ProducerInv n R' W buf p := by
  cases p with
  | idle => trivial
  | loadR c w => exact h
  | loadBase c wl => exact ⟨h.1.mono le, h.2⟩
  | copy c wl base i => exact ⟨h.1.mono le, h.2⟩
  | loadW c wl => exact ⟨h.1.mono le, h.2⟩
  | storeW c wl value => exact ⟨h.1.mono le, h.2⟩

theorem ConsumerInv.publish {n R : Nat} {published more : List UInt8} {q : Consumer}
    (h : ConsumerInv n R published.length published q) :
    ConsumerInv n R (published ++ more).length (published ++ more) q := by
  have longer : published.length ≤ (published ++ more).length := by simp
  cases q with
  | idle => trivial
  | loadR c w =>
    obtain ⟨meant, W₀, eq, lo, hi⟩ := h
    exact ⟨meant, W₀, eq, lo, hi.trans longer⟩
  | loadBase c left rl =>
    obtain ⟨offset, le, fits, sign⟩ := h
    exact ⟨offset, le, by omega, sign⟩
  | copy c rl base i got =>
    obtain ⟨offset, fits, eq, le, bytes⟩ := h
    exact ⟨offset, by omega, eq, le, by rw [take_drop_append (by omega)]; exact bytes⟩
  | loadR' c rl got =>
    obtain ⟨sign, fits, bytes⟩ := h
    exact ⟨sign, by omega, by rw [take_drop_append (by omega)]; exact bytes⟩
  | storeR value taken =>
    obtain ⟨fits, eq, bytes⟩ := h
    exact ⟨by omega, eq, by rw [take_drop_append fits]; exact bytes⟩

theorem SpanInv.publish {n R W W' : Nat} {span : Nat × Int} (h : SpanInv n R W span)
    (le : W ≤ W') : SpanInv n R W' span := by
  intro some_bytes
  obtain ⟨T, lo, hi, cell, inside⟩ := h some_bytes
  exact ⟨T, lo, by omega, cell, inside⟩

namespace Inv
variable {n : Nat} {s : State}

theorem with_producer (h : Inv n s) {p : Producer}
    (hp : ProducerInv n s.consumed.length s.published.length s.buf p) :
    Inv n { s with producer := p } :=
  { h with producer := hp }

theorem with_consumer (h : Inv n s) {q : Consumer}
    (hq : ConsumerInv n s.consumed.length s.published.length s.published q) :
    Inv n { s with consumer := q } :=
  { h with consumer := hq }

theorem freeSize (h : Inv n s) :
    freeSizeOfLoads n (s.published.length % (2 * n)) s.r =
      .ok ((s.consumed.length + n - s.published.length : Nat) : Int) := by
  rw [h.r_eq]
  exact freeSizeOfLoads_spec h.pos h.small h.le h.room

theorem producer_loadR (h : Inv n s) {c : WriteCall} {w : Nat}
    (at_pc : s.producer = .loadR c w) :
    ∃ s', producerStep n s = .ok s' ∧ Inv n s' := by
  have inv := h.producer
  rw [at_pc] at inv
  obtain ⟨w_eq, nonneg, small⟩ := inv
  have le := h.le
  have room := h.room
  have two := h.small
  simp only [producerStep, at_pc]
  rw [w_eq, h.freeSize, ok_bind, int32_ok (by omega) (by omega), ok_bind]
  split
  · exact ⟨_, rfl, h.with_producer trivial⟩
  · rename_i some_taken
    have taken_le : clampLen c.len
        (((s.consumed.length + n - s.published.length : Nat) : Int) - c.offset) ≤
        ((s.consumed.length + n - s.published.length : Nat) : Int) - c.offset := by
      unfold clampLen
      split <;> omega
    have len_le : clampLen c.len
        (((s.consumed.length + n - s.published.length : Nat) : Int) - c.offset) ≤ c.len := by
      unfold clampLen
      split <;> omega
    have fits : Room n s.consumed.length s.published.length c (clampLen c.len
        (((s.consumed.length + n - s.published.length : Nat) : Int) - c.offset)) :=
      ⟨by omega, nonneg, by omega⟩
    cases c with
    | skip len =>
      exact ⟨_, rfl, h.with_producer ⟨fits, fun data len enough eq => by cases eq⟩⟩
    | write data len enough =>
      exact ⟨_, rfl, h.with_producer ⟨fits, len_le.trans enough⟩⟩
    | draft offset data len enough =>
      exact ⟨_, rfl, h.with_producer ⟨fits, len_le.trans enough⟩⟩

theorem producer_loadBase (h : Inv n s) {c : WriteCall} {wl : Int}
    (at_pc : s.producer = .loadBase c wl) :
    ∃ s', producerStep n s = .ok s' ∧ Inv n s' := by
  have inv := h.producer
  rw [at_pc] at inv
  obtain ⟨fits, enough⟩ := inv
  have room := fits.fits
  have nonneg := fits.offset
  have some_bytes := fits.pos
  have two := h.small
  have le := h.le
  have lt : s.published.length % (2 * n) < 2 * n := Nat.mod_lt _ (by have := h.pos; omega)
  have base : toUint32 ((s.w : Int) + c.offset) % n =
      (s.published.length + c.offset.toNat) % n := by
    have sum : toUint32 ((s.w : Int) + c.offset) =
        s.published.length % (2 * n) + c.offset.toNat := by
      rw [h.w_eq]
      unfold toUint32
      omega
    rw [sum, Nat.add_mod, mirror_mod, ← Nat.add_mod]
  refine ⟨_, by simp only [producerStep, at_pc]; rfl, h.with_producer ?_⟩
  exact ⟨fits, enough, base, by simp; omega, fun j hj => absurd hj (Nat.not_lt_zero j)⟩

/-- Storing one byte of a copy: the cell is in the producer's room, so the
unreleased bytes and the bytes copied before it stay. -/
theorem store_byte (h : Inv n s) {c : WriteCall} {wl : Int} {base i : Nat}
    (at_pc : s.producer = .copy c wl base i) (more : (i : Int) < wl) :
    Inv n { s with
      buf := s.buf.set (cellOf n base i) (c.data.getD i 0)
      producer := .copy c wl base (i + 1) } := by
  have inv := h.producer
  rw [at_pc] at inv
  obtain ⟨fits, enough, base_eq, _, copied⟩ := inv
  have room := fits.fits
  have nonneg := fits.offset
  have le := h.le
  have within := h.room
  have cell : cellOf n base i = (s.published.length + c.offset.toNat + i) % n := by
    rw [base_eq]
    exact cellOf_eq h.pos (by omega)
  have other : ∀ {t : Nat}, s.consumed.length ≤ t →
      t < s.published.length + c.offset.toNat + i → t % n ≠ cellOf n base i := by
    intro t lo hi same
    rw [cell] at same
    have := cell_injective (a := s.consumed.length) lo (by omega) (by omega) (by omega) same
    omega
  have kept : ∀ {t : Nat}, s.consumed.length ≤ t →
      t < s.published.length + c.offset.toNat + i →
      (s.buf.set (cellOf n base i) (c.data.getD i 0))[t % n]? = s.buf[t % n]? :=
    fun lo hi => List.getElem?_set_ne (other lo hi).symm
  have intact : Holds (s.buf.set (cellOf n base i) (c.data.getD i 0)) n
      (fun t => s.published[t]?) s.consumed.length s.published.length :=
    fun t lo hi => (kept lo (by omega)).trans (h.intact t lo hi)
  have filled : ∀ j < i + 1, (s.buf.set (cellOf n base i) (c.data.getD i 0))[
      (s.published.length + c.offset.toNat + j) % n]? = c.data[j]? := by
    intro j hj
    rcases Nat.lt_succ_iff_lt_or_eq.mp hj with before | rfl
    · exact (kept (by omega) (by omega)).trans (copied j before)
    · have lt : cellOf n base j < s.buf.length := by
        rw [cell, h.backing]
        exact Nat.mod_lt _ h.pos
      rw [← cell, List.getElem?_set_self lt, List.getD_eq_getElem?_getD,
        List.getElem?_eq_getElem (show j < c.data.length by omega)]
      rfl
  exact
    { h with
      backing := by simpa using h.backing
      intact := intact
      producer := ⟨fits, enough, base_eq, by push_cast; omega, filled⟩ }

theorem producer_copy (h : Inv n s) {c : WriteCall} {wl : Int} {base i : Nat}
    (at_pc : s.producer = .copy c wl base i) :
    ∃ s', producerStep n s = .ok s' ∧ Inv n s' := by
  simp only [producerStep, at_pc]
  split
  · rename_i more
    exact ⟨_, rfl, h.store_byte at_pc more⟩
  · rename_i done
    have inv := h.producer
    rw [at_pc] at inv
    obtain ⟨fits, enough, _, upto, copied⟩ := inv
    cases c with
    | draft offset data len le => exact ⟨_, rfl, h.with_producer trivial⟩
    | write data len le =>
      refine ⟨_, rfl, h.with_producer ⟨fits, ?_⟩⟩
      rintro data' len' le' eq
      cases eq
      refine ⟨enough, fun j hj => ?_⟩
      simpa [WriteCall.offset, WriteCall.data] using copied j (by omega)
    | skip len =>
      exact ⟨_, rfl, h.with_producer ⟨fits, fun data len enough eq => by cases eq⟩⟩

theorem producer_loadW (h : Inv n s) {c : WriteCall} {wl : Int}
    (at_pc : s.producer = .loadW c wl) :
    ∃ s', producerStep n s = .ok s' ∧ Inv n s' := by
  have inv := h.producer
  rw [at_pc] at inv
  obtain ⟨fits, filled⟩ := inv
  have room := fits.fits
  have nonneg := fits.offset
  have some_bytes := fits.pos
  have le := h.le
  have fixed := ehRingbufFix_spec (T := s.published.length) (k := wl.toNat) h.pos h.small
    (by omega)
  rw [Int.toNat_of_nonneg some_bytes.le] at fixed
  rw [← h.w_eq] at fixed
  refine ⟨_, by simp only [producerStep, at_pc, fixed, ok_bind]; rfl, h.with_producer ?_⟩
  exact ⟨fits, rfl, filled⟩

theorem published_eq (h : Inv n s) {c : WriteCall} {wl : Int} {value : Nat}
    (at_pc : s.producer = .storeW c wl value) :
    (c.published n s.buf s.w wl.toNat).length = wl.toNat ∧
      ∀ j < wl.toNat, s.buf[(s.published.length + j) % n]? =
        (c.published n s.buf s.w wl.toNat)[j]? := by
  have inv := h.producer
  rw [at_pc] at inv
  obtain ⟨fits, _, filled⟩ := inv
  have stored : ∀ j < wl.toNat, s.buf[(s.published.length + j) % n]? =
      (bytesFrom n s.buf s.w wl.toNat)[j]? := fun j hj => by
    rw [h.w_eq, getElem?_bytesFrom h.pos h.backing hj]
  cases c with
  | write data len enough =>
    obtain ⟨long, bytes⟩ := filled data len enough rfl
    refine ⟨by simp [WriteCall.published]; omega, fun j hj => ?_⟩
    rw [bytes j (by omega), WriteCall.published, List.getElem?_take_of_lt hj]
  | draft offset data len enough => exact ⟨length_bytesFrom .., stored⟩
  | skip len => exact ⟨length_bytesFrom .., stored⟩

theorem producer_storeW (h : Inv n s) {c : WriteCall} {wl : Int} {value : Nat}
    (at_pc : s.producer = .storeW c wl value) :
    ∃ s', producerStep n s = .ok s' ∧ Inv n s' := by
  have inv := h.producer
  rw [at_pc] at inv
  obtain ⟨fits, value_eq, _⟩ := inv
  obtain ⟨len, bytes⟩ := h.published_eq at_pc
  have room := fits.fits
  have nonneg := fits.offset
  have some_bytes := fits.pos
  have le := h.le
  simp only [producerStep, at_pc]
  generalize c.published n s.buf s.w wl.toNat = more at len bytes ⊢
  refine ⟨_, rfl, ?_⟩
  exact
    { h with
      le := by simp; omega
      room := by simp; omega
      w_eq := by simp [value_eq, len]
      intact := by
        intro t lo hi
        dsimp only at lo hi ⊢
        by_cases old : t < s.published.length
        · rw [List.getElem?_append_left old]
          exact h.intact t lo old
        · rw [List.length_append] at hi
          have new := bytes (t - s.published.length) (by omega)
          rw [Nat.add_sub_cancel' (by omega)] at new
          rw [List.getElem?_append_right (by omega)]
          exact new
      in_order := by
        dsimp only
        rw [List.take_append_of_le_length le]
        exact h.in_order
      producer := trivial
      consumer := h.consumer.publish
      lent := fun span mem => (h.lent span mem).publish (by simp) }

theorem producer_step (h : Inv n s) : ∃ s', producerStep n s = .ok s' ∧ Inv n s' := by
  cases at_pc : s.producer with
  | idle => exact ⟨s, by simp only [producerStep, at_pc]; rfl, h⟩
  | loadR c w => exact h.producer_loadR at_pc
  | loadBase c wl => exact h.producer_loadBase at_pc
  | copy c wl base i => exact h.producer_copy at_pc
  | loadW c wl => exact h.producer_loadW at_pc
  | storeW c wl value => exact h.producer_storeW at_pc

theorem bytesFrom_released (h : Inv n s) {k : Nat}
    (hk : s.consumed.length + k ≤ s.published.length) :
    bytesFrom n s.buf s.r k = (s.published.drop s.consumed.length).take k := by
  rw [h.r_eq]
  exact bytesFrom_eq h.pos h.backing h.intact hk

theorem consumer_loadR_clear (h : Inv n s) {w : Nat}
    (at_pc : s.consumer = .loadR .clear w) :
    ∃ s', consumerStep n s = .ok s' ∧ Inv n s' := by
  have inv := h.consumer
  rw [at_pc] at inv
  obtain ⟨_, W₀, w_eq, lo, hi⟩ := inv
  have pos := h.pos
  have room := h.room
  have apart := mirror_distance h.pos lo (by omega)
  have lt : s.r < 2 * n := by
    rw [h.r_eq]
    exact Nat.mod_lt _ (by omega)
  rw [← h.r_eq, ← w_eq] at apart
  have passed : (w + 2 * n - s.r) % (2 * n) = W₀ - s.consumed.length := by
    rcases apart with ahead | behind
    · rw [show w + 2 * n - s.r = W₀ - s.consumed.length + 2 * n by omega,
        Nat.add_mod_right, Nat.mod_eq_of_lt (by omega)]
    · rw [show w + 2 * n - s.r = W₀ - s.consumed.length by omega,
        Nat.mod_eq_of_lt (by omega)]
  refine ⟨_, by simp only [consumerStep, at_pc, passed]; rfl, h.with_consumer ?_⟩
  rw [h.bytesFrom_released (by omega)]
  have len : ((s.published.drop s.consumed.length).take
      (W₀ - s.consumed.length)).length = W₀ - s.consumed.length := by
    simp
    omega
  refine ⟨by omega, ?_, by rw [len]⟩
  rw [len, Nat.add_sub_cancel' lo, w_eq]

theorem held (h : Inv n s) {W₀ : Nat} (lo : s.consumed.length ≤ W₀)
    (hi : W₀ ≤ s.published.length) :
    sizeOfLoads n (W₀ % (2 * n)) s.r = .ok ((W₀ - s.consumed.length : Nat) : Int) := by
  have room := h.room
  rw [h.r_eq]
  exact sizeOfLoads_spec h.pos h.small lo (by omega)

theorem consumer_loadR (h : Inv n s) {c : ReadCall} {w : Nat}
    (at_pc : s.consumer = .loadR c w) :
    ∃ s', consumerStep n s = .ok s' ∧ Inv n s' := by
  have inv := h.consumer
  rw [at_pc] at inv
  obtain ⟨⟨nonneg, small, copies⟩, W₀, w_eq, lo, hi⟩ := inv
  have room := h.room
  have two := h.small
  have size := h.held lo hi
  rw [← w_eq] at size
  have taken_le : ∀ len : Int, clampLen len ((W₀ - s.consumed.length : Nat) : Int) ≤
      ((W₀ - s.consumed.length : Nat) : Int) := by
    intro len
    unfold clampLen
    split <;> omega
  cases c with
  | clear => exact h.consumer_loadR_clear at_pc
  | read len =>
    have le := taken_le len
    simp only [consumerStep, at_pc, size, ok_bind]
    split
    · exact ⟨_, rfl, h.with_consumer trivial⟩
    · refine ⟨_, rfl, h.with_consumer ⟨nonneg, le, ?_, fun _ => by omega⟩⟩
      simp only [ReadCall.offset]
      omega
  | skip len =>
    have le := taken_le len
    simp only [consumerStep, at_pc, size, ok_bind]
    split
    · exact ⟨_, rfl, h.with_consumer trivial⟩
    · exact ⟨_, rfl, h.with_consumer ⟨by omega, by omega,
        h.bytesFrom_released (by omega)⟩⟩
  | peek offset len =>
    simp only [ReadCall.offset] at nonneg small
    simp only [consumerStep, at_pc, size, ok_bind]
    rw [int32_ok (by omega) (by omega), ok_bind]
    split
    · exact ⟨_, rfl, h.with_consumer trivial⟩
    · refine ⟨_, rfl, h.with_consumer ⟨nonneg, by omega, ?_, fun no => (no _ _ rfl).elim⟩⟩
      simp only [ReadCall.offset]
      omega
  | peekCopy offset len =>
    have sign := copies offset len rfl
    simp only [ReadCall.offset] at nonneg small
    simp only [consumerStep, at_pc, size, ok_bind]
    rw [int32_ok (by omega) (by omega), ok_bind]
    split
    · exact ⟨_, rfl, h.with_consumer trivial⟩
    · rw [if_neg (by omega)]
      refine ⟨_, rfl, h.with_consumer ⟨nonneg, by omega, ?_, fun _ => sign⟩⟩
      simp only [ReadCall.offset]
      omega

theorem readBase (h : Inv n s) {offset : Int} (nonneg : 0 ≤ offset)
    (fits : (s.consumed.length : Int) + offset ≤ s.published.length) :
    toUint32 ((s.r : Int) + offset) % n = (s.consumed.length + offset.toNat) % n := by
  have pos := h.pos
  have two := h.small
  have room := h.room
  have lt : s.consumed.length % (2 * n) < 2 * n := Nat.mod_lt _ (by omega)
  have sum : toUint32 ((s.r : Int) + offset) =
      s.consumed.length % (2 * n) + offset.toNat := by
    rw [h.r_eq]
    unfold toUint32
    omega
  rw [sum, Nat.add_mod, mirror_mod, ← Nat.add_mod]

theorem consumer_loadBase (h : Inv n s) {c : ReadCall} {left rl : Int}
    (at_pc : s.consumer = .loadBase c left rl) :
    ∃ s', consumerStep n s = .ok s' ∧ Inv n s' := by
  have inv := h.consumer
  rw [at_pc] at inv
  obtain ⟨nonneg, le, fits, sign⟩ := inv
  have two := h.small
  have base_lt : toUint32 ((s.r : Int) + c.offset) % n < n := Nat.mod_lt _ h.pos
  have base : 0 ≤ left → toUint32 ((s.r : Int) + c.offset) % n =
      (s.consumed.length + c.offset.toNat) % n :=
    fun some_left => h.readBase nonneg (by omega)
  have copying : 0 ≤ rl → Inv n { s with
      consumer := .copy c rl (toUint32 ((s.r : Int) + c.offset) % n) 0 [] } := by
    intro some_bytes
    exact h.with_consumer ⟨nonneg, by omega, base (by omega), by simpa using some_bytes,
      by simp⟩
  simp only [consumerStep, at_pc]
  generalize toUint32 ((s.r : Int) + c.offset) % n = cell at base_lt base copying ⊢
  rw [int32_ok (by omega) (by omega), ok_bind]
  cases c with
  | peek offset len =>
    dsimp only
    split
    · have shown : (if left > (n : Int) - cell then (n : Int) - cell else left) ≤ left ∧
          (if left > (n : Int) - cell then (n : Int) - cell else left) ≤ n - cell := by
        split <;> omega
      refine ⟨_, rfl, { h.with_consumer (q := .idle) trivial with
        lent := fun span mem => ?_ }⟩
      rcases List.mem_cons.mp mem with rfl | old
      · intro some_bytes
        dsimp only at some_bytes ⊢
        exact ⟨s.consumed.length + (ReadCall.peek offset len).offset.toNat, by omega,
          by omega, base (by omega), by omega⟩
      · exact h.lent span old
    · exact ⟨_, rfl, copying (by omega)⟩
  | read len => exact ⟨_, rfl, copying (sign fun _ _ => nofun)⟩
  | skip len => exact ⟨_, rfl, copying (sign fun _ _ => nofun)⟩
  | peekCopy offset len => exact ⟨_, rfl, copying (sign fun _ _ => nofun)⟩
  | clear => exact ⟨_, rfl, copying (sign fun _ _ => nofun)⟩

theorem consumer_copy (h : Inv n s) {c : ReadCall} {rl : Int} {base i : Nat}
    {got : List UInt8} (at_pc : s.consumer = .copy c rl base i got) :
    ∃ s', consumerStep n s = .ok s' ∧ Inv n s' := by
  have inv := h.consumer
  rw [at_pc] at inv
  obtain ⟨nonneg, fits, base_eq, upto, bytes⟩ := inv
  have room := h.room
  simp only [consumerStep, at_pc]
  split
  · rename_i more
    have cell : cellOf n base i = (s.consumed.length + c.offset.toNat + i) % n := by
      rw [base_eq]
      exact cellOf_eq h.pos (by omega)
    have inside : s.consumed.length + c.offset.toNat + i < s.published.length := by omega
    have stored : s.buf[(s.consumed.length + c.offset.toNat + i) % n]? =
        s.published[s.consumed.length + c.offset.toNat + i]? :=
      h.intact _ (by omega) inside
    have byte : s.buf.getD (cellOf n base i) 0 =
        s.published[s.consumed.length + c.offset.toNat + i] := by
      rw [List.getD_eq_getElem?_getD, cell, stored, List.getElem?_eq_getElem inside]
      rfl
    refine ⟨_, rfl, h.with_consumer ⟨nonneg, fits, base_eq, by push_cast; omega, ?_⟩⟩
    rw [byte, bytes, List.take_add_one, List.getElem?_drop, List.getElem?_eq_getElem inside]
    rfl
  · rename_i done
    cases c with
    | read len =>
      refine ⟨_, rfl, h.with_consumer ⟨by omega, ?_, ?_⟩⟩
      · simpa [ReadCall.offset] using fits
      · have all : i = rl.toNat := by omega
        simpa [ReadCall.offset, all] using bytes
    | skip len => exact ⟨_, rfl, h.with_consumer trivial⟩
    | peek offset len => exact ⟨_, rfl, h.with_consumer trivial⟩
    | peekCopy offset len => exact ⟨_, rfl, h.with_consumer trivial⟩
    | clear => exact ⟨_, rfl, h.with_consumer trivial⟩

theorem consumer_loadR' (h : Inv n s) {c : ReadCall} {rl : Int} {got : List UInt8}
    (at_pc : s.consumer = .loadR' c rl got) :
    ∃ s', consumerStep n s = .ok s' ∧ Inv n s' := by
  have inv := h.consumer
  rw [at_pc] at inv
  obtain ⟨sign, fits, bytes⟩ := inv
  have room := h.room
  have fixed := ehRingbufFix_spec (T := s.consumed.length) (k := rl.toNat) h.pos h.small
    (by omega)
  rw [Int.toNat_of_nonneg sign, ← h.r_eq] at fixed
  have len : got.length = rl.toNat := by
    rw [bytes]
    simp
    omega
  refine ⟨_, by simp only [consumerStep, at_pc, fixed, ok_bind]; rfl, h.with_consumer ?_⟩
  exact ⟨by omega, by rw [len], by rw [len]; exact bytes⟩

theorem consumer_storeR (h : Inv n s) {value : Nat} {taken : List UInt8}
    (at_pc : s.consumer = .storeR value taken) :
    ∃ s', consumerStep n s = .ok s' ∧ Inv n s' := by
  have inv := h.consumer
  rw [at_pc] at inv
  obtain ⟨fits, value_eq, bytes⟩ := inv
  have room := h.room
  refine ⟨_, by simp only [consumerStep, at_pc]; rfl, ?_⟩
  exact
    { h with
      le := by simpa using fits
      room := by simp; omega
      r_eq := by simp [value_eq]
      intact := h.intact.mono (by simp) le_rfl
      in_order := by
        dsimp only
        rw [List.length_append, List.take_add, ← h.in_order, ← bytes]
      producer := h.producer.release (by simp)
      consumer := trivial
      lent := fun span mem => absurd mem (List.not_mem_nil) }

theorem consumer_step (h : Inv n s) : ∃ s', consumerStep n s = .ok s' ∧ Inv n s' := by
  cases at_pc : s.consumer with
  | idle => exact ⟨s, by simp only [consumerStep, at_pc]; rfl, h⟩
  | loadR c w => exact h.consumer_loadR at_pc
  | loadBase c left rl => exact h.consumer_loadBase at_pc
  | copy c rl base i got => exact h.consumer_copy at_pc
  | loadR' c rl got => exact h.consumer_loadR' at_pc
  | storeR value taken => exact h.consumer_storeR at_pc

theorem step_ok (h : Inv n s) {l : Label} (meant : l.Meant) :
    ∃ s', step n s l = .ok s' ∧ Inv n s' := by
  cases l with
  | write c =>
    cases at_pc : s.producer with
    | idle =>
      exact ⟨_, by simp only [step, at_pc]; rfl,
        h.with_producer (p := .loadR c s.w) ⟨h.w_eq, meant⟩⟩
    | _ => exact ⟨s, by simp only [step, at_pc]; rfl, h⟩
  | read c =>
    cases at_pc : s.consumer with
    | idle =>
      exact ⟨_, by simp only [step, at_pc]; rfl,
        h.with_consumer (q := .loadR c s.w) ⟨meant, _, h.w_eq, h.le, le_rfl⟩⟩
    | _ => exact ⟨s, by simp only [step, at_pc]; rfl, h⟩
  | producer => exact h.producer_step
  | consumer => exact h.consumer_step

theorem initial {storage : List UInt8} (pos : 0 < n) (small : 2 * n < 2 ^ 31)
    (backing : storage.length = n) : Inv n (init storage) where
  pos := pos
  small := small
  backing := backing
  le := le_rfl
  room := Nat.zero_le _
  w_eq := by simp [init]
  r_eq := by simp [init]
  intact := fun t lo hi => absurd hi (by simp [init])
  in_order := rfl
  producer := trivial
  consumer := trivial
  lent := fun span mem => absurd mem (List.not_mem_nil)

theorem safe (h : Inv n s) : Safe n s where
  no_overwrite := by
    rintro cell next ⟨t, lo, hi, same⟩
    have inv := h.producer
    unfold State.overwrites at next
    split at next
    case h_2 => cases next
    case h_1 c wl base i at_pc =>
      rw [at_pc] at inv
      obtain ⟨fits, _, base_eq, _, _⟩ := inv
      have room := fits.fits
      have nonneg := fits.offset
      have le := h.le
      have within := h.room
      split at next
      case isFalse => cases next
      case isTrue more =>
        cases next
        rw [base_eq, cellOf_eq h.pos (by omega)] at same
        have := cell_injective (a := s.consumed.length) lo (by omega) (by omega)
          (by omega) same
        omega
  reads_published := by
    rintro cell (⟨c, rl, base, i, got, at_pc, more, rfl⟩ | ⟨span, mem, lo, hi⟩)
    · have inv := h.consumer
      rw [at_pc] at inv
      obtain ⟨nonneg, fits, base_eq, _, _⟩ := inv
      have room := h.room
      rw [base_eq, cellOf_eq h.pos (by omega)]
      exact ⟨_, by omega, by omega, rfl⟩
    · obtain ⟨T, above, below, start, inside⟩ := h.lent span mem (by omega)
      have split := mod_split (t := T) (d := cell - span.1) h.pos (by omega)
      exact ⟨T + (cell - span.1), by omega, by omega, by omega⟩
  intact := h.intact
  in_order := h.in_order ▸ List.take_prefix ..

end Inv

theorem reach_inv {n : Nat} {storage : List UInt8} (pos : 0 < n) (small : 2 * n < 2 ^ 31)
    (backing : storage.length = n) {ls : List Label} {s : State}
    (reach : Reach n storage ls s) (meant : ∀ l ∈ ls, l.Meant) : Inv n s := by
  refine Run.invariant_of_forall ?_ reach meant (Inv.initial pos small backing)
  intro s l t inv hl step
  obtain ⟨t', run, inv'⟩ := inv.step_ok hl
  rw [run] at step
  cases step
  exact inv'

/-- In every interleaving of calls with no negative offset (nor a negative length
to copy out), the two sides never meet, and no step faults. -/
theorem producer_consumer_safe {n : Nat} {storage : List UInt8} (pos : 0 < n)
    (small : 2 * n ≤ 2 ^ 31 - 1) (backing : storage.length = n) {ls : List Label}
    {s : State} (reach : Reach n storage ls s) (meant : ∀ l ∈ ls, l.Meant) :
    Safe n s ∧ ∀ l : Label, l.Meant → ∃ s', step n s l = .ok s' := by
  have inv := reach_inv pos (by omega) backing reach meant
  refine ⟨inv.safe, fun l hl => ?_⟩
  obtain ⟨s', run, _⟩ := inv.step_ok hl
  exact ⟨s', run⟩

theorem reach_of_foldlM {n : Nat} {storage : List UInt8} {ls : List Label} {s : State}
    (ran : ls.foldlM (step n) (init storage) = .ok s) : Reach n storage ls s :=
  Run.of_foldlM ran

theorem producer_consumer_safe_two :
    ∃ (ls : List Label) (s : State), Reach 2 [0, 0] ls s ∧ s.lent = [(0, 1)] ∧ Safe 2 s ∧
      ∀ l : Label, l.Meant → ∃ s', step 2 s l = .ok s' := by
  have reach : Reach 2 [0, 0] [.write (.write [7] 1 (by decide)), .producer, .producer,
      .producer, .producer, .producer, .producer, .read (.peek 0 1), .consumer, .consumer]
      ⟨1, 0, [7, 0], .idle, .idle, [(0, 1)], [7], []⟩ := reach_of_foldlM rfl
  have backing : ([0, 0] : List UInt8).length = 2 := rfl
  refine ⟨_, _, reach, rfl, producer_consumer_safe (by decide) (by decide) backing reach ?_⟩
  simp [Label.Meant, WriteCall.offset, ReadCall.offset]

/-- A draft at offset -1 stores into a byte that is published and not released. -/
theorem negative_offset_unsafe :
    ¬∀ (n : Nat) (storage : List UInt8), 0 < n → 2 * n ≤ 2 ^ 31 - 1 →
      storage.length = n → ∀ (ls : List Label) (s : State), Reach n storage ls s →
      Safe n s := by
  intro claim
  have reach : Reach 2 [0, 0] [.write (.write [7] 1 (by decide)), .producer, .producer,
      .producer, .producer, .producer, .producer, .write (.draft (-1) [9] 1 (by decide)),
      .producer, .producer]
      ⟨1, 0, [7, 0], .copy (.draft (-1) [9] 1 (by decide)) 1 0 0, .idle, [], [7], []⟩ :=
    reach_of_foldlM rfl
  have safe := claim 2 [0, 0] (by decide) (by decide) rfl _ _ reach
  exact safe.no_overwrite 0 rfl ⟨0, Nat.zero_le _, by decide, rfl⟩

end EventHub.Ringbuf.Concurrent
