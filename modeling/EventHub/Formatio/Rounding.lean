import EventHub.Formatio.Numbers
import EventHub.Library.Nearest
import Mathlib.Data.Rat.Floor

/-! The rounding of `float_decentralized` in exact arithmetic. -/

namespace EventHub.Formatio
open Library

/-- The operations of `float_decentralized` on numbers and on 64-bit integers. -/
structure Arithmetic (α ι : Type) where
  truncate : α → ι
  ofInteger : ι → α
  sub : α → α → α
  half : α
  lt : α → α → Bool
  le : α → α → Bool
  beq : α → α → Bool
  zero : ι
  succ : ι → ι
  isZero : ι → Bool
  isOdd : ι → Bool

/-- The rounding of `float_decentralized`: from the integral part and the scaled remainder to the
integral and the fractional part, where `pow` is the power of 10. -/
def roundFraction {α ι : Type} (A : Arithmetic α ι) (pow : α) (integral : ι) (scaled : α) : ι × ι :=
  let fractional := A.truncate scaled
  let remainder := A.sub scaled (A.ofInteger fractional)
  if A.lt A.half remainder then
    if A.le pow (A.ofInteger (A.succ fractional)) then (A.succ integral, A.zero)
    else (integral, A.succ fractional)
  else if A.beq remainder A.half ∧ (A.isZero fractional ∨ A.isOdd fractional) then
    (integral, A.succ fractional)
  else (integral, fractional)

/-- Doubles and `uint64_t`. -/
def machine (undefined : UInt64) : Arithmetic Float UInt64 where
  truncate := toUint64 undefined
  ofInteger n := Float.ofNat n.toNat
  sub x y := x - y
  half := 0.5
  lt x y := x < y
  le x y := x ≤ y
  beq x y := x == y
  zero := 0
  succ n := n + 1
  isZero n := n = 0
  isOdd n := n &&& 1 = 1

def exactly : Arithmetic ℚ ℕ where
  truncate x := ⌊x⌋₊
  ofInteger n := n
  sub x y := x - y
  half := 1 / 2
  lt x y := x < y
  le x y := x ≤ y
  beq x y := x = y
  zero := 0
  succ n := n + 1
  isZero n := n = 0
  isOdd n := n % 2 = 1

/-- With a precision, `float_decentralized` rounds so. -/
theorem floatDecentralized_eq (undefined : Undefined) (num : Float) (precision : Int)
    (some : clampPrecision precision ≠ 0) :
    floatDecentralized undefined num precision =
      let sign := signOf undefined.nanSign num
      let absNumber := if sign then -num else num
      let integral := toUint64 undefined.integral absNumber
      let pow := powerOf10 (clampPrecision precision)
      let scaled := (absNumber - Float.ofNat integral.toNat) * pow
      let rounded := roundFraction (machine undefined.fractional) pow integral scaled
      ⟨rounded.1, rounded.2, sign⟩ := by
  unfold floatDecentralized roundFraction
  dsimp only [machine]
  simp only [decide_eq_true_eq, if_neg some]

/-! What is printed behind the point. -/

def fractionDigits (precision fractional : Nat) : List UInt8 :=
  List.replicate (precision - numBitCount 10 fractional) '0'.toUInt8 ++
    numDigits smallDigits 10 (numBitCount 10 fractional) fractional

/-- In the fixed form exactly `precision` digits stand behind the point, and they denote the
fractional part. -/
def PrintsFraction (precision fractional : Nat) : Prop :=
  ∀ (alloc : Bool) (components : DoubleComponents) (fieldWidth : Int) (flags : Flags)
    (out : Printed), components.fractional.toNat = fractional → flags.floatE = false →
    vprintfFloatDecimalismOrNormalized alloc components fieldWidth precision flags 0 = some out →
    ∃ front digits k, out.bytes = front ++ ['.'.toUInt8] ++ digits ++ List.replicate k ' '.toUInt8 ∧
      digits.length = precision ∧ (∀ ch ∈ digits, ch ∈ smallDigits.take 10) ∧
      valueOf 10 digits = fractional

section Fraction
variable {precision fractional : Nat}

theorem numBitCount_le_iff (some : 0 < precision) :
    numBitCount 10 fractional ≤ precision ↔ fractional < 10 ^ precision := by
  constructor
  · intro le
    have lt : fractional < 10 ^ numBitCount 10 fractional := lt_pow_numBitCount (by decide)
    have pow : 10 ^ numBitCount 10 fractional ≤ 10 ^ precision :=
      Nat.pow_le_pow_right (by decide) le
    omega
  · intro lt
    by_contra more
    have pos : fractional ≠ 0 := by
      rintro rfl
      rw [numBitCount, if_pos (.inl (Nat.zero_div 10))] at more
      omega
    have ten : 2 ≤ 10 := by decide
    have le := pow_numBitCount_le ten pos
    have pow : 10 ^ precision ≤ 10 ^ (numBitCount 10 fractional - 1) :=
      Nat.pow_le_pow_right (by decide) (by omega)
    omega

theorem valueOf_zeros (l : List UInt8) (k : Nat) :
    valueOf 10 (List.replicate k '0'.toUInt8 ++ l) = valueOf 10 l := by
  induction k with
  | zero => rfl
  | succ k ih =>
    rw [← ih]
    rfl

theorem print_fraction {alloc : Bool} {components : DoubleComponents} {fieldWidth : Int}
    {flags : Flags} {out : Printed} (pos : 0 < precision) (few : precision ≤ 18)
    (fixed : flags.floatE = false)
    (run : vprintfFloatDecimalismOrNormalized alloc components fieldWidth precision flags 0 =
      some out) :
    ∃ front k, out.bytes = front ++ ['.'.toUInt8] ++
      fractionDigits precision components.fractional.toNat ++ List.replicate k ' '.toUInt8 := by
  have put : ∀ (p : Printed) (ch : UInt8), (p.put ch).bytes = p.bytes ++ [ch] := fun _ _ => rfl
  have clamp : clampPrecision precision = precision := by
    unfold clampPrecision formatFloatPowersTabSize
    omega
  unfold vprintfFloatDecimalismOrNormalized at run
  split at run
  · cases run
  · extract_lets precisionPad prec sign dotted expE expSign expLen intLen fracLen fracPad validLen
      padLen start lead signed zeros integral point pad digits whole withE two last at run
    have same : prec = precision := clamp
    have dot : dotted := .inl (by omega)
    have length : fracLen = numBitCount 10 components.fractional.toNat := if_pos (by omega)
    have pads : fracPad.toNat = precision - numBitCount 10 components.fractional.toNat := by
      rw [← length]
      unfold fracPad
      split <;> omega
    have body : last.bytes = integral.bytes ++ ['.'.toUInt8] ++
        fractionDigits precision components.fractional.toNat := by
      have no_exponent : last = whole := if_neg (by simp [fixed])
      have no_more : precisionPad = 0 := if_neg (by unfold formatFloatPowersTabSize; omega)
      have pointed : point = integral.put '.'.toUInt8 := if_pos dot
      rw [no_exponent, Printed.fill_bytes, Printed.puts_bytes, Printed.fill_bytes, pointed, put,
        pads, length, fractionDigits, no_more]
      simp only [Int.toNat_zero, List.replicate_zero, List.append_nil,
        List.append_assoc]
    obtain rfl := Option.some.inj run
    split
    · exact ⟨integral.bytes, padLen.toNat, by rw [Printed.fill_bytes, body]⟩
    · exact ⟨integral.bytes, 0, by rw [body, List.replicate_zero, List.append_nil]⟩

theorem printsFraction (pos : 0 < precision) (few : precision ≤ 18)
    (lt : fractional < 10 ^ precision) : PrintsFraction precision fractional := by
  intro alloc components fieldWidth flags out same fixed run
  obtain ⟨front, k, bytes⟩ := print_fraction pos few fixed run
  have enough := (numBitCount_le_iff pos).mpr lt
  have table : Digits smallDigits 10 := smallDigits_digits (by decide)
  refine ⟨front, fractionDigits precision fractional, k, by rw [bytes, same], ?_, ?_, ?_⟩
  · rw [fractionDigits, List.length_append, List.length_replicate, numDigits_length]
    omega
  · intro ch mem
    rw [fractionDigits, List.mem_append, List.mem_replicate] at mem
    rcases mem with ⟨-, rfl⟩ | mem
    · decide
    · exact mem_numDigits (by decide) (by decide) mem
  · rw [fractionDigits, valueOf_zeros]
    exact valueOf_numDigits table (by decide) (lt_pow_numBitCount (by decide))

end Fraction

/-! The rounding is right but for two ties and the end of the range. -/

/-- The pair is the nearest decimal with `precision` digits, and is printed with all of them. -/
structure RoundsRight (precision integral : Nat) (scaled : ℚ) (rounded : Nat × Nat) : Prop where
  below : rounded.2 < 10 ^ precision
  nearest : NearestEven (integral * 10 ^ precision + scaled)
    ((rounded.1 * 10 ^ precision + rounded.2 : Nat) : Int)
  printed : PrintsFraction precision rounded.2

section Round
variable {precision integral : Nat} {scaled : ℚ}

theorem even_pow (pos : 0 < precision) (n : Nat) : (n * 10 ^ precision) % 2 = 0 := by
  obtain ⟨k, rfl⟩ : ∃ k, precision = k + 1 := ⟨precision - 1, by omega⟩
  rw [Nat.pow_succ, ← Nat.mul_assoc]
  omega

theorem roundsRight_iff {a b d : Nat} (pos : 0 < precision) (few : precision ≤ 18)
    (total : a * 10 ^ precision + b = integral * 10 ^ precision + d) :
    RoundsRight precision integral scaled (a, b) ↔ b < 10 ^ precision ∧
      (|scaled - d| < 1 / 2 ∨ |scaled - d| = 1 / 2 ∧ d % 2 = 0) := by
  have away : (integral * 10 ^ precision + scaled : ℚ) -
      ((a * 10 ^ precision + b : Nat) : Int) = scaled - d := by
    rw [total]
    push_cast
    ring
  have even : Even ((a * 10 ^ precision + b : Nat) : Int) ↔ d % 2 = 0 := by
    have tens := even_pow pos integral
    rw [Int.even_coe_nat, Nat.even_iff, total]
    omega
  have near : NearestEven (integral * 10 ^ precision + scaled)
      ((a * 10 ^ precision + b : Nat) : Int) ↔
      |scaled - d| < 1 / 2 ∨ |scaled - d| = 1 / 2 ∧ d % 2 = 0 := by
    rw [nearestEven_iff, away, even]
  exact ⟨fun right => ⟨right.below, near.mp right.nearest⟩,
    fun both => ⟨both.1, near.mpr both.2, printsFraction pos few both.1⟩⟩

theorem roundFraction_exactly (pow : ℚ) (integral : Nat) (scaled : ℚ) :
    roundFraction exactly pow integral scaled =
      if 1 / 2 < scaled - ⌊scaled⌋₊ then
        if pow ≤ (⌊scaled⌋₊ + 1 : Nat) then (integral + 1, 0) else (integral, ⌊scaled⌋₊ + 1)
      else if scaled - ⌊scaled⌋₊ = 1 / 2 ∧ (⌊scaled⌋₊ = 0 ∨ ⌊scaled⌋₊ % 2 = 1) then
        (integral, ⌊scaled⌋₊ + 1)
      else (integral, ⌊scaled⌋₊) := by
  simp only [roundFraction, exactly, decide_eq_true_eq]

theorem ten_pow_cast (precision : Nat) : ((10 ^ precision : Nat) : ℚ) = 10 ^ precision := by
  push_cast
  rfl

theorem failing_iff {f pow : Nat} (floor_le : (f : ℚ) ≤ scaled) (lt_floor : scaled < f + 1)
    (le : scaled ≤ pow) :
    (scaled ≠ 1 / 2 ∧ scaled ≠ pow - 1 / 2 ∧ scaled ≠ pow) ↔
      ¬(scaled - f = 1 / 2 ∧ (f = 0 ∨ f + 1 = pow)) ∧ f ≠ pow := by
  have small : f ≤ pow := by exact_mod_cast floor_le.trans le
  constructor
  · rintro ⟨half, top, last⟩
    refine ⟨?_, ?_⟩
    · rintro ⟨tie, rfl | rfl⟩
      · exact half (by simpa using tie)
      · exact top (by push_cast; linarith)
    · rintro rfl
      exact last (le_antisymm le floor_le)
  · rintro ⟨no_tie, inside⟩
    refine ⟨?_, ?_, ?_⟩
    · rintro rfl
      have zero : f = 0 := by
        have : (f : ℚ) < 1 := by linarith
        have : f < 1 := by exact_mod_cast this
        omega
      exact no_tie ⟨by rw [zero]; norm_num, .inl zero⟩
    · rintro rfl
      have upper : pow < f + 2 := by
        have : (pow : ℚ) < f + 2 := by linarith
        exact_mod_cast this
      have lower : f < pow := by
        have : (f : ℚ) < pow := by linarith
        exact_mod_cast this
      have top : f + 1 = pow := by omega
      refine no_tie ⟨?_, .inr top⟩
      rw [← top]
      push_cast
      ring
    · rintro rfl
      have : pow < f + 1 := by exact_mod_cast lt_floor
      omega

/-- Exactly when the rounding of `float_decentralized` is right. -/
theorem roundFraction_right_iff (precision integral : Nat) (scaled : ℚ) (pos : 1 ≤ precision)
    (few : precision ≤ 18) (nonneg : 0 ≤ scaled) (le : scaled ≤ 10 ^ precision) :
    RoundsRight precision integral scaled
        (roundFraction exactly (10 ^ precision) integral scaled) ↔
      scaled ≠ 1 / 2 ∧ scaled ≠ 10 ^ precision - 1 / 2 ∧ scaled ≠ 10 ^ precision := by
  have floor_le := Nat.floor_le nonneg
  have lt_floor := Nat.lt_floor_add_one scaled
  have even := even_pow pos 1
  rw [Nat.one_mul] at even
  rw [roundFraction_exactly]
  rw [← ten_pow_cast] at le ⊢
  generalize ⌊scaled⌋₊ = f at floor_le lt_floor ⊢
  have small : f ≤ 10 ^ precision := by exact_mod_cast floor_le.trans le
  rw [failing_iff floor_le lt_floor le]
  by_cases up : 1 / 2 < scaled - f
  · have inside : f ≠ 10 ^ precision := by
      rintro eq
      rw [← eq] at le
      linarith
    have near : |scaled - (f + 1 : Nat)| < 1 / 2 := by
      push_cast
      rw [abs_of_neg (by linarith)]
      linarith
    rw [if_pos up]
    refine iff_of_true ?_ ⟨fun tie => by linarith [tie.1], inside⟩
    by_cases carry : ((10 ^ precision : Nat) : ℚ) ≤ (f + 1 : Nat)
    · have top : f + 1 = 10 ^ precision := by
        have le' : 10 ^ precision ≤ f + 1 := by exact_mod_cast carry
        omega
      rw [if_pos carry]
      refine (roundsRight_iff pos few ?_).mpr ⟨Nat.pow_pos (by decide), .inl near⟩
      rw [top]
      ring
    · have below : f + 1 < 10 ^ precision := by exact_mod_cast not_le.mp carry
      rw [if_neg carry]
      exact (roundsRight_iff pos few rfl).mpr ⟨below, .inl near⟩
  · rw [if_neg up]
    by_cases tie : scaled - f = 1 / 2
    · by_cases odd : f = 0 ∨ f % 2 = 1
      · have near : |scaled - (f + 1 : Nat)| = 1 / 2 := by
          push_cast
          rw [abs_of_neg (by linarith)]
          linarith
        rw [if_pos ⟨tie, odd⟩, roundsRight_iff pos few rfl, near]
        simp only [lt_irrefl, false_or, true_and, tie]
        omega
      · have near : |scaled - f| = 1 / 2 := by rw [tie, abs_of_pos (by norm_num)]
        rw [if_neg fun both => odd both.2, roundsRight_iff pos few rfl, near]
        simp only [lt_irrefl, false_or, true_and, tie]
        omega
    · have near : |scaled - f| < 1 / 2 := by
        rw [abs_of_nonneg (by linarith)]
        exact lt_of_le_of_ne (not_lt.mp up) tie
      rw [if_neg fun both => tie both.1, roundsRight_iff pos few rfl]
      simp only [near, true_or, and_true, tie, false_and, not_false_eq_true, true_and]
      omega

theorem roundFraction_right_iff_third :
    RoundsRight 1 2 (25 / 4) (roundFraction exactly (10 ^ 1) 2 (25 / 4)) :=
  (roundFraction_right_iff 1 2 (25 / 4) (by decide) (by decide) (by norm_num) (by norm_num)).mpr
    (by norm_num)

/-- `%.1f` of 0.95: the tie at the end of the range is rounded up to 10 tenths with no carry, and
two digits are printed. -/
theorem roundFraction_no_carry :
    roundFraction exactly (10 ^ 1) 0 (19 / 2) = (0, 10) ∧
      ¬RoundsRight 1 0 (19 / 2) (roundFraction exactly (10 ^ 1) 0 (19 / 2)) := by
  have floor : ⌊(19 / 2 : ℚ)⌋₊ = 9 := by
    rw [Nat.floor_eq_iff (by norm_num)]
    norm_num
  have result : roundFraction exactly (10 ^ 1) 0 (19 / 2) = (0, 10) := by
    rw [roundFraction_exactly, floor]
    norm_num
  refine ⟨result, fun right => ?_⟩
  rw [result] at right
  exact absurd right.below (by decide)

end Round

end EventHub.Formatio
