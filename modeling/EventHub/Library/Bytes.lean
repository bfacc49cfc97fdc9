import Mathlib

/-! Byte-addressed memory. Addresses have `n` bits and wrap, a value of `k` bytes lies at the
`k` addresses from its own on, the least significant byte first. -/

namespace EventHub.Library

abbrev Bytes (n : Nat) := BitVec n → BitVec 8

/-- The addresses of `k` bytes from `a` on. -/
def area {n : Nat} (a : BitVec n) (k : Nat) : Set (BitVec n) := {x | (x - a).toNat < k}

/-- Areas, by address and size, that do not reach each other, either way round. -/
def Clear {n : Nat} (s t : BitVec n × Nat) : Prop :=
  s.2 ≤ (t.1 - s.1).toNat ∧ t.2 ≤ (s.1 - t.1).toNat

instance {n : Nat} (s t : BitVec n × Nat) : Decidable (Clear s t) :=
  inferInstanceAs (Decidable (_ ∧ _))

section Area
variable {n i k l : Nat} {a b x : BitVec n}

theorem mem_area : x ∈ area a k ↔ (x - a).toNat < k := Iff.rfl

theorem add_mem_area (h : i < k) : a + BitVec.ofNat n i ∈ area a k := by
  rw [mem_area, BitVec.add_comm, BitVec.add_sub_cancel, BitVec.toNat_ofNat]
  exact (Nat.mod_le _ _).trans_lt h

theorem area_add_subset (h : i + l ≤ k) : area (a + BitVec.ofNat n i) l ⊆ area a k := by
  intro x inside
  rw [mem_area] at inside ⊢
  have split : x - a = x - (a + BitVec.ofNat n i) + BitVec.ofNat n i := by
    rw [← BitVec.sub_sub, BitVec.sub_add_cancel]
  rw [split, BitVec.toNat_add, BitVec.toNat_ofNat]
  have := Nat.mod_le i (2 ^ n)
  exact (Nat.mod_le _ _).trans_lt (by omega)

theorem area_disjoint {j : Nat} (first : i + l ≤ j) (last : j + k ≤ 2 ^ n) :
    Disjoint (area (a + BitVec.ofNat n i) l) (area (a + BitVec.ofNat n j) k) := by
  rw [Set.disjoint_left]
  intro x left right
  rw [mem_area] at left right
  have split : x - (a + BitVec.ofNat n i) =
      x - (a + BitVec.ofNat n j) + BitVec.ofNat n (j - i) := by
    have shift : BitVec.ofNat n j = BitVec.ofNat n i + BitVec.ofNat n (j - i) := by
      rw [← BitVec.ofNat_add]
      congr 1
      omega
    conv_rhs => rw [shift, ← BitVec.add_assoc, ← BitVec.sub_sub, BitVec.sub_add_cancel]
  rw [split, BitVec.toNat_add, BitVec.toNat_ofNat, Nat.mod_eq_of_lt (by omega : j - i < 2 ^ n),
    Nat.mod_eq_of_lt (by omega)] at left
  omega

theorem Clear.symm {s t : BitVec n × Nat} (clear : Clear s t) : Clear t s := And.symm clear

theorem Clear.disjoint (clear : Clear (a, l) (b, k)) : Disjoint (area a l) (area b k) := by
  obtain ⟨before, behind⟩ := clear
  rw [Set.disjoint_left]
  intro x left right
  rw [mem_area] at left right
  have split : x - a = x - b + (b - a) := by
    rw [BitVec.sub_eq_add_neg b a, ← BitVec.add_assoc, BitVec.sub_add_cancel,
      ← BitVec.sub_eq_add_neg]
  have back : (b - a).toNat + (a - b).toNat = 0 ∨ (b - a).toNat + (a - b).toNat = 2 ^ n := by
    rw [BitVec.sub_eq_add_neg a b, BitVec.add_comm, ← BitVec.neg_sub, BitVec.toNat_neg]
    rcases Nat.eq_zero_or_pos (b - a).toNat with zero | pos
    · simp [zero]
    · rw [Nat.mod_eq_of_lt (by omega)]
      have := (b - a).isLt
      omega
  have := (x - b).isLt
  dsimp only at before behind
  rw [split, BitVec.toNat_add] at left
  rcases back with back | back
  · omega
  · rcases lt_or_ge ((x - b).toNat + (b - a).toNat) (2 ^ n) with small | wraps
    · rw [Nat.mod_eq_of_lt small] at left
      omega
    · omega

end Area

namespace Bytes
variable {n k l : Nat} {m m' : Bytes n} {a b x : BitVec n}

def read (m : Bytes n) (a : BitVec n) : (k : Nat) → BitVec (8 * k)
  | 0 => 0
  | k + 1 => (m (a + BitVec.ofNat n k) ++ m.read a k).cast (by omega)

def write (m : Bytes n) (a : BitVec n) {k : Nat} (v : BitVec (8 * k)) : Bytes n := fun x =>
  if (x - a).toNat < k then v.extractLsb' (8 * (x - a).toNat) 8 else m x

theorem write_of_notMem {v : BitVec (8 * k)} (out : x ∉ area a k) : m.write a v x = m x :=
  if_neg out

theorem getLsbD_read {i : Nat} (h : i < 8 * k) :
    (m.read a k).getLsbD i = (m (a + BitVec.ofNat n (i / 8))).getLsbD (i % 8) := by
  induction k with
  | zero => omega
  | succ k ih =>
    rw [read, BitVec.getLsbD_cast, BitVec.getLsbD_append]
    split
    · next below => exact ih below
    · next above =>
      have last : i / 8 = k := by omega
      rw [last]
      congr 1
      omega

theorem read_congr (same : ∀ x ∈ area a k, m x = m' x) : m.read a k = m'.read a k := by
  refine BitVec.eq_of_getLsbD_eq fun i lt => ?_
  rw [getLsbD_read lt, getLsbD_read lt, same _ (add_mem_area (by omega))]

theorem read_zero : Bytes.read (fun _ => 0) a k = 0 :=
  BitVec.eq_of_getLsbD_eq fun i lt => by simp [getLsbD_read lt]

theorem read_write (v : BitVec (8 * k)) (fits : k ≤ 2 ^ n) : (m.write a v).read a k = v := by
  refine BitVec.eq_of_getLsbD_eq fun i lt => ?_
  have byte : a + BitVec.ofNat n (i / 8) - a = BitVec.ofNat n (i / 8) := by
    rw [BitVec.add_comm, BitVec.add_sub_cancel]
  have small : (BitVec.ofNat n (i / 8)).toNat = i / 8 := by
    rw [BitVec.toNat_ofNat]
    exact Nat.mod_eq_of_lt (by omega)
  rw [getLsbD_read lt, write, byte, small, if_pos (by omega), BitVec.getLsbD_extractLsb',
    decide_eq_true (Nat.mod_lt i (by omega)), Bool.true_and]
  congr 1
  exact Nat.div_add_mod i 8

theorem read_write_zero {i : Nat} (inside : i + l ≤ k) :
    (m.write a (0 : BitVec (8 * k))).read (a + BitVec.ofNat n i) l = 0 := by
  refine BitVec.eq_of_getLsbD_eq fun j lt => ?_
  have byte : a + BitVec.ofNat n i + BitVec.ofNat n (j / 8) ∈ area a k :=
    area_add_subset inside (add_mem_area (by omega))
  rw [getLsbD_read lt, write, if_pos (mem_area.mp byte)]
  simp

theorem read_write_of_disjoint {v : BitVec (8 * l)} (apart : Disjoint (area b l) (area a k)) :
    (m.write b v).read a k = m.read a k :=
  read_congr fun _ inside => write_of_notMem (Set.disjoint_right.mp apart inside)

end Bytes

end EventHub.Library
