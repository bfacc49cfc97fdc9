import Mathlib.Data.List.Rotate

/-! A FIFO of bounded capacity, with its free cells kept in sight.
A producer may fill free cells before it publishes them, so the abstract state
is the queued elements followed by the free cells in the order of filling. -/

namespace EventHub.Library

structure Fifo (α : Type*) where
  queue : List α
  spare : List α

namespace Fifo
variable {α : Type*}

def capacity (f : Fifo α) : Nat := f.queue.length + f.spare.length

def cells (f : Fifo α) : List α := f.queue ++ f.spare

/-- A request for `len` elements is granted `max 0 (min len limit)` of them. -/
def granted (len : Int) (limit : Nat) : Nat := (max 0 (min len limit)).toNat

def write (f : Fifo α) (data : List α) (len : Int) : Fifo α :=
  ⟨f.queue ++ data.take (granted len f.spare.length),
    f.spare.drop (granted len f.spare.length)⟩

def writeSkip (f : Fifo α) (len : Int) : Fifo α := f.write f.spare len

def read (f : Fifo α) (len : Int) : Fifo α :=
  ⟨f.queue.drop (granted len f.queue.length),
    f.spare ++ f.queue.take (granted len f.queue.length)⟩

def clear (f : Fifo α) : Fifo α := f.read f.queue.length

/-- Fill free cells, from the one at `offset` on, without publishing them. -/
def fill (f : Fifo α) (offset : Nat) (data : List α) : Fifo α :=
  ⟨f.queue, f.spare.take offset ++ data ++ f.spare.drop (offset + data.length)⟩

theorem granted_le (len : Int) (limit : Nat) : granted len limit ≤ limit := by
  unfold granted
  omega

theorem granted_le_len {len : Int} {k : Nat} (limit : Nat) (h : len ≤ k) :
    granted len limit ≤ k := by
  unfold granted
  omega

@[simp] theorem granted_self (limit : Nat) : granted limit limit = limit := by
  unfold granted
  omega

theorem capacity_write {f : Fifo α} {data : List α} {len : Int}
    (h : len ≤ data.length) : (f.write data len).capacity = f.capacity := by
  have room := granted_le len f.spare.length
  have enough := granted_le_len f.spare.length h
  simp only [capacity, write, List.length_append, List.length_take, List.length_drop]
  omega

theorem capacity_writeSkip (f : Fifo α) (len : Int) :
    (f.writeSkip len).capacity = f.capacity := by
  have room := granted_le len f.spare.length
  simp only [capacity, writeSkip, write, List.length_append, List.length_take,
    List.length_drop]
  omega

theorem capacity_read (f : Fifo α) (len : Int) :
    (f.read len).capacity = f.capacity := by
  have room := granted_le len f.queue.length
  simp only [capacity, read, List.length_append, List.length_take, List.length_drop]
  omega

@[simp] theorem length_queue_write {f : Fifo α} {data : List α} {len : Int}
    (h : len ≤ data.length) :
    (f.write data len).queue.length = f.queue.length + granted len f.spare.length := by
  have enough := granted_le_len f.spare.length h
  simp only [write, List.length_append, List.length_take]
  omega

@[simp] theorem length_queue_read (f : Fifo α) (len : Int) :
    (f.read len).queue.length = f.queue.length - granted len f.queue.length :=
  List.length_drop

theorem getElem?_cells_write {f : Fifo α} {data : List α} {len : Int}
    (h : len ≤ data.length) (i : Nat) :
    (f.write data len).cells[i]? =
      if f.queue.length ≤ i ∧ i < f.queue.length + granted len f.spare.length then
        data[i - f.queue.length]?
      else f.cells[i]? := by
  have enough := granted_le_len f.spare.length h
  have taken : (data.take (granted len f.spare.length)).length =
      granted len f.spare.length := by simp; omega
  simp only [cells, write, List.append_assoc]
  by_cases queued : i < f.queue.length
  · rw [if_neg (by omega), List.getElem?_append_left queued,
      List.getElem?_append_left queued]
  · rw [List.getElem?_append_right (by omega)]
    by_cases fresh : i < f.queue.length + granted len f.spare.length
    · rw [if_pos ⟨by omega, fresh⟩, List.getElem?_append_left (by omega),
        List.getElem?_take_of_lt (by omega)]
    · rw [if_neg (by omega), List.getElem?_append_right (by omega),
        List.getElem?_append_right (by omega), List.getElem?_drop, taken]
      congr 1
      omega

theorem cells_writeSkip (f : Fifo α) (len : Int) : (f.writeSkip len).cells = f.cells := by
  simp [cells, writeSkip, write]

theorem cells_read (f : Fifo α) (len : Int) :
    (f.read len).cells =
      f.cells.drop (granted len f.queue.length) ++
        f.cells.take (granted len f.queue.length) := by
  have le := granted_le len f.queue.length
  simp only [cells, read]
  rw [List.drop_append_of_le_length le, List.take_append_of_le_length le,
    List.append_assoc]

@[simp] theorem fill_queue (f : Fifo α) (offset : Nat) (data : List α) :
    (f.fill offset data).queue = f.queue := rfl

@[simp] theorem fill_nil (f : Fifo α) (offset : Nat) : f.fill offset [] = f := by
  simp [fill]

theorem length_spare_fill {f : Fifo α} {offset : Nat} {data : List α}
    (h : offset + data.length ≤ f.spare.length) :
    (f.fill offset data).spare.length = f.spare.length := by
  simp only [fill, List.length_append, List.length_take, List.length_drop]
  omega

theorem getElem?_spare_fill {f : Fifo α} {offset : Nat} {data : List α}
    (h : offset + data.length ≤ f.spare.length) (i : Nat) :
    (f.fill offset data).spare[i]? =
      if offset ≤ i ∧ i < offset + data.length then data[i - offset]? else f.spare[i]? := by
  have before : (f.spare.take offset).length = offset := by simp; omega
  simp only [fill, List.append_assoc]
  by_cases left : i < offset
  · rw [if_neg (by omega), List.getElem?_append_left (by omega), List.getElem?_take_of_lt left]
  · rw [List.getElem?_append_right (by omega), before]
    by_cases inside : i < offset + data.length
    · rw [if_pos ⟨by omega, inside⟩, List.getElem?_append_left (by omega)]
    · rw [if_neg (by omega), List.getElem?_append_right (by omega), List.getElem?_drop]
      congr 1
      omega

theorem getElem?_cells_fill {f : Fifo α} {offset : Nat} {data : List α}
    (h : offset + data.length ≤ f.spare.length) (i : Nat) :
    (f.fill offset data).cells[i]? =
      if f.queue.length + offset ≤ i ∧ i < f.queue.length + offset + data.length then
        data[i - (f.queue.length + offset)]?
      else f.cells[i]? := by
  simp only [cells, fill_queue]
  by_cases queued : i < f.queue.length
  · rw [if_neg (by omega), List.getElem?_append_left queued, List.getElem?_append_left queued]
  · rw [List.getElem?_append_right (by omega), List.getElem?_append_right (by omega),
      getElem?_spare_fill h]
    by_cases inside : f.queue.length + offset ≤ i ∧ i < f.queue.length + offset + data.length
    · rw [if_pos (by omega), if_pos inside]
      congr 1
      omega
    · rw [if_neg (by omega), if_neg inside]

@[simp] theorem clear_queue (f : Fifo α) : f.clear.queue = [] := by
  simp [clear, read]

end Fifo

end EventHub.Library
