import EventHub.Formatio.Convert

/-! What `vprintf_number` prints: the parts of the output, and the number that the digits denote. -/

namespace EventHub.Formatio

def digitValue (ch : UInt8) : Nat :=
  if ch < 'A'.toUInt8 then ch.toNat - '0'.toNat
  else if ch < 'a'.toUInt8 then ch.toNat - 'A'.toNat + 10
  else ch.toNat - 'a'.toNat + 10

def valueOf (base : Nat) (l : List UInt8) : Nat := l.foldl (fun v ch => v * base + digitValue ch) 0

/-- The digits of a table up to `base` have their values, and only the first is a zero. -/
structure Digits (digits : List UInt8) (base : Nat) : Prop where
  value : ∀ i < base, digitValue (digits.getD i 0) = i
  zero : ∀ i < base, digits.getD i 0 = '0'.toUInt8 → i = 0

theorem smallDigits_digits {base : Nat} (le : base ≤ 16) : Digits smallDigits base := by
  have all : ∀ i < 16, digitValue (smallDigits.getD i 0) = i ∧
      (smallDigits.getD i 0 = '0'.toUInt8 → i = 0) := by decide
  exact ⟨fun i lt => (all i (by omega)).1, fun i lt => (all i (by omega)).2⟩

theorem largeDigits_digits {base : Nat} (le : base ≤ 16) : Digits largeDigits base := by
  have all : ∀ i < 16, digitValue (largeDigits.getD i 0) = i ∧
      (largeDigits.getD i 0 = '0'.toUInt8 → i = 0) := by decide
  exact ⟨fun i lt => (all i (by omega)).1, fun i lt => (all i (by omega)).2⟩

section Digits
variable {digits : List UInt8} {base number count : Nat}

@[simp] theorem numDigits_length : (numDigits digits base count number).length = count := by
  induction count generalizing number with
  | zero => rfl
  | succ count ih => rw [numDigits, List.length_append, ih, List.length_singleton]

theorem valueOf_snoc (l : List UInt8) (ch : UInt8) :
    valueOf base (l ++ [ch]) = valueOf base l * base + digitValue ch := by
  rw [valueOf, List.foldl_append]
  rfl

theorem valueOf_numDigits (table : Digits digits base) (pos : 0 < base)
    (lt : number < base ^ count) : valueOf base (numDigits digits base count number) = number := by
  induction count generalizing number with
  | zero =>
    rw [Nat.pow_zero] at lt
    obtain rfl : number = 0 := by omega
    rfl
  | succ count ih =>
    have fewer : number / base < base ^ count := by
      rw [Nat.div_lt_iff_lt_mul pos, ← Nat.pow_succ]
      exact lt
    rw [numDigits, valueOf_snoc, ih fewer, table.value _ (Nat.mod_lt _ pos)]
    exact Nat.div_add_mod' number base

theorem numBitCount_pos : 0 < numBitCount base number := by
  rw [numBitCount]
  split <;> omega

theorem lt_pow_numBitCount (two : 2 ≤ base) : number < base ^ numBitCount base number := by
  induction number using Nat.strong_induction_on with
  | _ number ih =>
    rw [numBitCount]
    by_cases small : number / base = 0
    · rw [if_pos (.inl small), Nat.pow_one]
      exact (Nat.div_eq_zero_iff_lt (by omega)).mp small
    · have pos : number ≠ 0 := by
        rintro rfl
        exact small (Nat.zero_div base)
      rw [if_neg (by omega), Nat.pow_succ, ← Nat.div_lt_iff_lt_mul (by omega)]
      exact ih _ (Nat.div_lt_self (by omega) two)

theorem pow_numBitCount_le (two : 2 ≤ base) (some : number ≠ 0) :
    base ^ (numBitCount base number - 1) ≤ number := by
  induction number using Nat.strong_induction_on with
  | _ number ih =>
    rw [numBitCount]
    by_cases small : number / base = 0
    · rw [if_pos (.inl small)]
      exact Nat.one_le_iff_ne_zero.mpr some
    · have more := ih _ (Nat.div_lt_self (by omega) two) small
      have pos : 0 < numBitCount base (number / base) := numBitCount_pos
      rw [if_neg (by omega), Nat.add_sub_cancel,
        show numBitCount base (number / base) =
          (numBitCount base (number / base) - 1) + 1 by omega, Nat.pow_succ,
        ← Nat.le_div_iff_mul_le (by omega)]
      exact more

theorem numBitCount_le (two : 2 ≤ base) {k : Nat} (pos : 0 < k) (lt : number < 2 ^ k) :
    numBitCount base number ≤ k := by
  by_cases some : number = 0
  · rw [some, numBitCount, if_pos (.inl (Nat.zero_div base))]
    exact pos
  · have le := pow_numBitCount_le two some
    have pow := Nat.pow_le_pow_left two (numBitCount base number - 1)
    have exponents : numBitCount base number - 1 < k :=
      (Nat.pow_lt_pow_iff_right Nat.one_lt_two).mp (by omega)
    omega

theorem numDigits_canonical (table : Digits digits base) (two : 2 ≤ base)
    (zero : (numDigits digits base (numBitCount base number) number).head? =
      some '0'.toUInt8) : number = 0 := by
  induction number using Nat.strong_induction_on with
  | _ number ih =>
    rw [numBitCount] at zero
    by_cases small : number / base = 0
    · rw [if_pos (.inl small)] at zero
      have first : digits.getD (number % base) 0 = '0'.toUInt8 := by
        simpa [numDigits] using zero
      have lt := (Nat.div_eq_zero_iff_lt (by omega)).mp small
      rw [Nat.mod_eq_of_lt lt] at first
      exact table.zero number lt first
    · have pos : number ≠ 0 := by
        rintro rfl
        exact small (Nat.zero_div base)
      rw [if_neg (by omega), numDigits, List.head?_append_of_ne_nil] at zero
      · exact absurd (ih _ (Nat.div_lt_self (by omega) two) zero) small
      · intro none
        have length := congrArg List.length none
        rw [numDigits_length] at length
        exact absurd length numBitCount_pos.ne'

end Digits

/-! The parts of the output. -/

def magnitude (num : BitVec 64) (flags : Flags) : Nat :=
  if flags.signed then num.toInt.natAbs else num.toNat

def numberSign (num : BitVec 64) (flags : Flags) : Option UInt8 :=
  if flags.signed ∧ num.toInt < 0 then some '-'.toUInt8
  else if flags.plus then some '+'.toUInt8
  else if flags.space then some ' '.toUInt8
  else none

def signBytes (num : BitVec 64) (flags : Flags) : List UInt8 := (numberSign num flags).toList

def specialBytes (flags : Flags) (base : Nat) : List UInt8 :=
  bytesOf <|
    if ¬flags.special then ""
    else if base = 8 then "0"
    else if base = 16 then if flags.large then "0X" else "0x"
    else if base = 2 then if flags.large then "0B" else "0b"
    else ""

structure NumberParts where
  lead : Nat
  zeros : Nat
  digits : List UInt8
  trail : Nat

def NumberParts.bytes (parts : NumberParts) (num : BitVec 64) (flags : Flags) (base : Nat) :
    List UInt8 :=
  List.replicate parts.lead ' '.toUInt8 ++ signBytes num flags ++ specialBytes flags base ++
    List.replicate parts.zeros '0'.toUInt8 ++ parts.digits ++
    List.replicate parts.trail ' '.toUInt8

/-- The digits are those of the number, without a superfluous zero, at least `precision` of them
with the zeros before, and no space is on the wrong side. -/
structure NumberParts.Right (parts : NumberParts) (num : BitVec 64) (flags : Flags)
    (base : Nat) (precision : Int) : Prop where
  nonempty : parts.digits ≠ []
  known : ∀ ch ∈ parts.digits, ch ∈ (if flags.large then largeDigits else smallDigits).take base
  canonical : parts.digits.head? = some '0'.toUInt8 → parts.digits = ['0'.toUInt8]
  value : valueOf base parts.digits = magnitude num flags
  precise : precision ≤ parts.zeros + parts.digits.length
  side : if flags.left then parts.lead = 0 else parts.trail = 0

def NumberParts.unpadded (parts : NumberParts) (num : BitVec 64) (flags : Flags) (base : Nat)
    (precision : Int) : Int :=
  (signBytes num flags).length + (specialBytes flags base).length +
    max precision parts.digits.length

def PrintsNumber (num : BitVec 64) (fieldWidth precision : Int) (flags : Flags) (base : Nat)
    (p : Printed) : Prop :=
  ∃ parts : NumberParts, p.bytes = parts.bytes num flags base ∧
    parts.Right num flags base precision ∧
    (p.bytes.length : Int) = max fieldWidth (parts.unpadded num flags base precision) ∧
    wrapInt p.n = p.bytes.length

section Parts
variable {num : BitVec 64} {flags : Flags} {base : Nat} {fieldWidth precision : Int} {p : Printed}

@[simp] theorem Printed.puts_bytes (p : Printed) (bs : List UInt8) :
    (p.puts bs).bytes = p.bytes ++ bs := by
  induction bs generalizing p with
  | nil => simp [Printed.puts]
  | cons b bs ih =>
    have next := ih (p.put b)
    rw [Printed.puts] at next ⊢
    rw [List.foldl_cons, next]
    simp [Printed.put, Printed.count, Printed.out]

@[simp] theorem Printed.fill_bytes (p : Printed) (k : Int) (ch : UInt8) :
    (p.fill k ch).bytes = p.bytes ++ List.replicate k.toNat ch := puts_bytes ..

theorem negated_toNat (num : BitVec 64) (flags : Flags) :
    (if flags.signed ∧ num.toInt < 0 then -num else num).toNat = magnitude num flags := by
  have word := num.isLt
  have signed := BitVec.toInt_eq_toNat_cond num
  unfold magnitude
  by_cases negative : flags.signed ∧ num.toInt < 0
  · rw [if_pos negative, if_pos negative.1, BitVec.toNat_neg]
    have sign := negative.2
    have abs : (num.toInt.natAbs : Int) = -num.toInt := Int.ofNat_natAbs_of_nonpos sign.le
    split at signed <;> omega
  · rw [if_neg negative]
    by_cases flag : flags.signed
    · have sign : 0 ≤ num.toInt := by
        by_contra neg
        exact negative ⟨flag, by omega⟩
      have abs : (num.toInt.natAbs : Int) = num.toInt := Int.natAbs_of_nonneg sign
      rw [if_pos flag]
      split at signed <;> omega
    · rw [if_neg flag]

def precisionZeros (precision : Int) (bitCount : Nat) : Int :=
  if precision > bitCount then precision - bitCount else 0

/-- The two numbers of padding bytes, zeros and spaces, where `realityCount` bytes are printed
otherwise. -/
def numberPads (fieldWidth precision : Int) (flags : Flags) (bitCount : Nat) (realityCount : Int) :
    Int × Int :=
  let zeropad := flags.zeropad ∧ precision < 0
  let wide := fieldWidth > realityCount
  (if wide ∧ zeropad then wrapInt (fieldWidth - realityCount)
    else precisionZeros precision bitCount,
    if wide ∧ ¬zeropad then wrapInt (fieldWidth - realityCount) else 0)

theorem max_eq_add_precisionZeros (precision : Int) (bitCount : Nat) :
    max precision bitCount = precisionZeros precision bitCount + bitCount := by
  unfold precisionZeros
  split
  · next more => rw [Int.max_eq_left more.lt.le, Int.sub_add_cancel]
  · next less => rw [Int.max_eq_right (by omega), Int.zero_add]

theorem numberPads_spec (precision : Int) (flags : Flags) (bitCount : Nat) {r : Int}
    (width : fieldWidth ≤ 2147483647) (pos : 0 ≤ r) :
    0 ≤ (numberPads fieldWidth precision flags bitCount r).2 ∧
      precisionZeros precision bitCount ≤ (numberPads fieldWidth precision flags bitCount r).1 ∧
      (numberPads fieldWidth precision flags bitCount r).1 +
          (numberPads fieldWidth precision flags bitCount r).2 + r =
        max fieldWidth r + precisionZeros precision bitCount := by
  have fits : fieldWidth > r → wrapInt (fieldWidth - r) = fieldWidth - r := by
    unfold wrapInt
    omega
  have none : precision < 0 → precisionZeros precision bitCount = 0 := fun neg =>
    if_neg (by omega)
  unfold numberPads
  dsimp only
  by_cases wide : fieldWidth > r
  · rw [fits wide]
    by_cases zeropad : flags.zeropad = true ∧ precision < 0
    · have first : fieldWidth > r ∧ flags.zeropad = true ∧ precision < 0 := ⟨wide, zeropad⟩
      rw [if_pos first, if_neg fun both => both.2 zeropad, none zeropad.2]
      omega
    · have second : fieldWidth > r ∧ ¬(flags.zeropad = true ∧ precision < 0) := ⟨wide, zeropad⟩
      rw [if_pos second, if_neg fun both => zeropad both.2]
      omega
  · rw [if_neg (fun both => wide both.1), if_neg (fun both => wide both.1)]
    omega

def assemble (left : Bool) (sign : Option UInt8) (special number : List UInt8)
    (zeros spaces : Int) : Printed :=
  let p := Printed.empty
  let p := if left then p else p.fill spaces ' '.toUInt8
  let p := match sign with
    | some sign => p.put sign
    | none => p
  let p := p.puts special
  let p := p.fill zeros '0'.toUInt8
  let p := p.puts number
  if left then p.fill spaces ' '.toUInt8 else p

theorem assemble_bytes (left : Bool) (sign : Option UInt8) (special number : List UInt8)
    (zeros spaces : Int) :
    (assemble left sign special number zeros spaces).bytes =
      List.replicate (if left then 0 else spaces.toNat) ' '.toUInt8 ++ sign.toList ++ special ++
        List.replicate zeros.toNat '0'.toUInt8 ++ number ++
        List.replicate (if left then spaces.toNat else 0) ' '.toUInt8 := by
  have put : ∀ (p : Printed) (ch : UInt8), (p.put ch).bytes = p.bytes ++ [ch] := fun _ _ => rfl
  unfold assemble
  cases left <;> cases sign <;> simp [put, Printed.empty]

/-- The number of bytes without the padding to the field width, as an `int`. -/
def realityCount (num : BitVec 64) (precision : Int) (flags : Flags) (base : Nat) : Int :=
  wrapInt ((if (numberSign num flags).isSome then 1 else 0) + (specialBytes flags base).length +
    numBitCount base (magnitude num flags) +
    precisionZeros precision (numBitCount base (magnitude num flags)))

theorem vprintfNumber_eq {alloc : Bool} (le : base ≤ 16)
    (room : numBitCount base (magnitude num flags) ≤ formatStackCacheSize ∨ alloc = true) :
    vprintfNumber alloc num fieldWidth precision flags base =
      assemble flags.left (numberSign num flags) (specialBytes flags base)
        (numDigits (if flags.large then largeDigits else smallDigits) base
          (numBitCount base (magnitude num flags)) (magnitude num flags))
        (numberPads fieldWidth precision flags (numBitCount base (magnitude num flags))
          (realityCount num precision flags base)).1
        (numberPads fieldWidth precision flags (numBitCount base (magnitude num flags))
          (realityCount num precision flags base)).2 := by
  unfold vprintfNumber
  rw [if_neg (by omega)]
  dsimp only
  rw [negated_toNat, if_neg (by rw [not_and_or, not_not, Nat.not_lt]; exact room)]
  rfl

theorem mem_numDigits {digits : List UInt8} {number count : Nat} {ch : UInt8} (pos : 0 < base)
    (le : base ≤ digits.length) (mem : ch ∈ numDigits digits base count number) :
    ch ∈ digits.take base := by
  induction count generalizing number with
  | zero => cases mem
  | succ count ih =>
    rw [numDigits, List.mem_append, List.mem_singleton] at mem
    rcases mem with mem | rfl
    · exact ih mem
    · have lt := Nat.mod_lt number pos
      rw [List.getD_eq_getElem?_getD, List.getElem?_eq_getElem (by omega), Option.getD_some]
      exact List.mem_take_iff_getElem.mpr ⟨number % base, by omega, rfl⟩

theorem signBytes_length (num : BitVec 64) (flags : Flags) : (signBytes num flags).length ≤ 1 := by
  unfold signBytes
  cases numberSign num flags <;> simp

theorem specialBytes_length (flags : Flags) (base : Nat) :
    (specialBytes flags base).length ≤ 2 := by
  unfold specialBytes
  split_ifs <;> decide

theorem magnitude_lt (num : BitVec 64) (flags : Flags) : magnitude num flags < 2 ^ 64 := by
  rw [← negated_toNat]
  exact BitVec.isLt _

theorem PrintsNumber.fits (prints : PrintsNumber num fieldWidth precision flags base p) :
    (signBytes num flags).length + (specialBytes flags base).length + precision ≤ 2147483647 := by
  obtain ⟨parts, -, right, length, returned⟩ := prints
  unfold NumberParts.unpadded at length
  unfold wrapInt at returned
  omega

/-- Exactly when a number is printed as it should be: the length must be an `int`. -/
theorem vprintfNumber_prints_iff (alloc : Bool) (num : BitVec 64) (fieldWidth precision : Int)
    (flags : Flags) (base : Nat) (known : base = 2 ∨ base = 8 ∨ base = 10 ∨ base = 16)
    (width : fieldWidth ≤ 2147483647) (digits : precision ≤ 2147483647)
    (room : numBitCount base (magnitude num flags) ≤ formatStackCacheSize ∨ alloc = true) :
    PrintsNumber num fieldWidth precision flags base
        (vprintfNumber alloc num fieldWidth precision flags base) ↔
      (signBytes num flags).length + (specialBytes flags base).length + precision ≤
        2147483647 := by
  have two : 2 ≤ base := by omega
  have le : base ≤ 16 := by omega
  have counted : (vprintfNumber alloc num fieldWidth precision flags base).Exact :=
    vprintfNumber_exact alloc num base
  have sign := signBytes_length num flags
  have special := specialBytes_length flags base
  constructor
  · exact PrintsNumber.fits
  · intro fits
    have enough := numBitCount_le two (by decide) (magnitude_lt num flags)
    have pos : 0 < numBitCount base (magnitude num flags) := numBitCount_pos
    have count : (if (numberSign num flags).isSome then 1 else 0 : Int) =
        (signBytes num flags).length := by
      unfold signBytes
      cases numberSign num flags <;> rfl
    have reality : realityCount num precision flags base = (signBytes num flags).length +
        (specialBytes flags base).length +
          max precision (numBitCount base (magnitude num flags)) := by
      unfold realityCount precisionZeros wrapInt
      rw [count]
      split <;> omega
    have table : Digits (if flags.large then largeDigits else smallDigits) base := by
      split
      · exact largeDigits_digits le
      · exact smallDigits_digits le
    have entries : base ≤ (if flags.large then largeDigits else smallDigits).length := by
      split <;> exact le
    have precise : precision ≤ precisionZeros precision (numBitCount base (magnitude num flags)) +
        numBitCount base (magnitude num flags) := by
      rw [← max_eq_add_precisionZeros]
      exact Int.le_max_left ..
    have some_zeros : precisionZeros precision (numBitCount base (magnitude num flags)) = 0 ∨
        0 < precisionZeros precision (numBitCount base (magnitude num flags)) ∧
          precisionZeros precision (numBitCount base (magnitude num flags)) +
            numBitCount base (magnitude num flags) = precision := by
      unfold precisionZeros
      split <;> omega
    rw [max_eq_add_precisionZeros] at reality
    rw [vprintfNumber_eq le room] at counted ⊢
    have filled : 0 ≤ realityCount num precision flags base := by omega
    obtain ⟨spaces, more, sum⟩ := numberPads_spec precision flags
      (numBitCount base (magnitude num flags)) width filled
    generalize (numberPads fieldWidth precision flags (numBitCount base (magnitude num flags))
      (realityCount num precision flags base)) = pads at counted spaces more sum ⊢
    obtain ⟨zeros, spaces'⟩ := pads
    dsimp only at counted spaces more sum ⊢
    have bytes := assemble_bytes flags.left (numberSign num flags) (specialBytes flags base)
      (numDigits (if flags.large then largeDigits else smallDigits) base
        (numBitCount base (magnitude num flags)) (magnitude num flags)) zeros spaces'
    have length := congrArg List.length bytes
    simp only [List.length_append, List.length_replicate, numDigits_length] at length
    rw [show (numberSign num flags).toList = signBytes num flags from rfl] at bytes length
    have total : ((if flags.left then 0 else spaces'.toNat : Nat) : Int) +
        (if flags.left then spaces'.toNat else 0 : Nat) = spaces' := by
      split <;> omega
    refine ⟨⟨if flags.left then 0 else spaces'.toNat, zeros.toNat, _,
      if flags.left then spaces'.toNat else 0⟩, bytes, ⟨?_, ?_, ?_, ?_, ?_, ?_⟩, ?_, ?_⟩
    · intro none
      have length := congrArg List.length none
      rw [numDigits_length] at length
      exact absurd length pos.ne'
    · exact fun ch mem => mem_numDigits (by omega) entries mem
    · intro head
      have zero := numDigits_canonical table two head
      have one : numBitCount base 0 = 1 := by rw [numBitCount, if_pos (.inl (Nat.zero_div base))]
      dsimp only
      rw [zero, one, numDigits, Nat.zero_mod]
      split <;> rfl
    · exact valueOf_numDigits table (by omega) (lt_pow_numBitCount two)
    · dsimp only
      rw [numDigits_length]
      omega
    · dsimp only
      split <;> rfl
    · rw [NumberParts.unpadded, numDigits_length, max_eq_add_precisionZeros]
      omega
    · rw [counted]
      unfold wrapInt
      omega

theorem vprintfNumber_prints_iff_min :
    PrintsNumber (BitVec.intMin 64) 24 (-1) { signed := true, zeropad := true } 10
      (vprintfNumber true (BitVec.intMin 64) 24 (-1) { signed := true, zeropad := true } 10) :=
  (vprintfNumber_prints_iff true (BitVec.intMin 64) 24 (-1) { signed := true, zeropad := true } 10
    (by decide) (by decide) (by decide) (.inr rfl)).mpr (by decide)

/-- `%+.2147483647d`: with the sign the length is no `int`, and it wraps. -/
theorem vprintfNumber_overflows :
    realityCount 1 2147483647 { signed := true, plus := true } 10 = -2147483648 ∧
      ¬PrintsNumber 1 (-1) 2147483647 { signed := true, plus := true } 10
        (vprintfNumber true 1 (-1) 2147483647 { signed := true, plus := true } 10) := by
  refine ⟨?_, fun prints => absurd prints.fits (by decide)⟩
  have one : numBitCount 10 1 = 1 := by rw [numBitCount, if_pos (.inl rfl)]
  rw [realityCount, show magnitude 1 { signed := true, plus := true } = 1 from rfl, one]
  decide

end Parts

end EventHub.Formatio
