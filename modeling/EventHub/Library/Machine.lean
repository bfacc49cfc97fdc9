import Mathlib.Data.List.Basic
import Mathlib.Tactic.Ring

/-! Fixed-width C arithmetic over `Nat` and `Int`, and checked byte copies.
Unsigned words wrap, signed words may not: an `int32_t` operation whose exact
result does not fit is a fault, as is an access outside the object it names. -/

namespace EventHub.Library

/-- What the C abstract machine leaves undefined. -/
inductive Fault
  | signedOverflow
  | outOfBounds
deriving DecidableEq, Repr

/-- The value of a signed 32-bit operation with exact result `x`. -/
def int32 (x : Int) : Except Fault Int :=
  if -2147483648 ≤ x ∧ x ≤ 2147483647 then .ok x else .error .signedOverflow

/-- Conversion to `uint32_t`. -/
def toUint32 (x : Int) : Nat := (x % 4294967296).toNat

/-- Conversion of a `uint32_t` to `int32_t`, two's complement. -/
def toInt32 (x : Nat) : Int := if x < 2147483648 then x else x - 4294967296

theorem int32_ok {x : Int} (lo : -2 ^ 31 ≤ x) (hi : x < 2 ^ 31) : int32 x = .ok x :=
  if_pos (by omega)

theorem toUint32_natCast {x : Nat} (h : x < 2 ^ 32) : toUint32 x = x := by
  unfold toUint32
  omega

theorem toInt32_toUint32 {x : Int} (lo : -2 ^ 31 ≤ x) (hi : x < 2 ^ 31) :
    toInt32 (toUint32 x) = x := by
  unfold toInt32 toUint32
  split <;> omega

@[simp] theorem ok_bind {ε α β : Type} (a : α) (f : α → Except ε β) :
    (Except.ok a >>= f) = f a := rfl

section Copy
variable {α : Type*}

/-- `memcpy(dst + at, src + off, len)`. -/
def memcpy (dst : List α) (pos : Nat) (src : List α) (off len : Nat) :
    Except Fault (List α) :=
  if pos + len ≤ dst.length ∧ off + len ≤ src.length then
    .ok (dst.take pos ++ (src.drop off).take len ++ dst.drop (pos + len))
  else .error .outOfBounds

/-- The `len` elements read from `src + off`. -/
def memread (src : List α) (off len : Nat) : Except Fault (List α) :=
  if off + len ≤ src.length then .ok ((src.drop off).take len) else .error .outOfBounds

theorem memcpy_spec {dst src : List α} {pos off len : Nat}
    (hd : pos + len ≤ dst.length) (hs : off + len ≤ src.length) :
    ∃ out, memcpy dst pos src off len = .ok out ∧ out.length = dst.length ∧
      ∀ i, out[i]? = if pos ≤ i ∧ i < pos + len then src[i - pos + off]? else dst[i]? := by
  refine ⟨_, if_pos ⟨hd, hs⟩, by simp; omega, fun i => ?_⟩
  have before : (dst.take pos).length = pos := by simp; omega
  have middle : ((src.drop off).take len).length = len := by simp; omega
  by_cases left : i < pos
  · rw [if_neg (by omega), List.append_assoc,
      List.getElem?_append_left (by omega), List.getElem?_take_of_lt left]
  · by_cases inside : i < pos + len
    · rw [if_pos ⟨by omega, inside⟩, List.append_assoc,
        List.getElem?_append_right (by omega), before,
        List.getElem?_append_left (by omega), List.getElem?_take_of_lt (by omega),
        List.getElem?_drop, Nat.add_comm off]
    · rw [if_neg (by omega), List.getElem?_append_right (by simp; omega),
        List.getElem?_drop]
      congr 1
      simp only [List.length_append, before, middle]
      omega

theorem memread_ok {src : List α} {off len : Nat} (h : off + len ≤ src.length) :
    memread src off len = .ok ((src.drop off).take len) :=
  if_pos h

end Copy

end EventHub.Library
