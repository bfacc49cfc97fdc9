import EventHub.Formatio.Float
import Mathlib.Data.Int.Order.Basic
import Mathlib.Tactic.Ring

/-! The conversions of `eh_formatio.c`. Each yields the bytes that it passes to
`streamout_in_byte`, in this order, and the number that it returns. -/

namespace EventHub.Formatio

structure Flags where
  left : Bool := false
  plus : Bool := false
  space : Bool := false
  special : Bool := false
  zeropad : Bool := false
  large : Bool := false
  signed : Bool := false
  floatE : Bool := false
  floatF : Bool := false
  floatG : Bool := false
deriving DecidableEq, Repr

inductive FormatQualifier
  | none
  | long
  | longLong
  | short
  | char
  | sizeT
deriving DecidableEq, Repr

def bytesOf (s : String) : List UInt8 := s.toList.map fun c => UInt8.ofNat c.toNat

def smallDigits : List UInt8 := bytesOf "0123456789abcdef"
def largeDigits : List UInt8 := bytesOf "0123456789ABCDEF"

def formatStackCacheSize : Nat := 16

/-- The bytes so far, and the counter `n` before it is reduced to an `int`. -/
structure Printed where
  bytes : List UInt8
  n : Int
deriving DecidableEq, Repr

namespace Printed

def empty : Printed := ⟨[], 0⟩

/-- `streamout_in_byte(stream, ch)`. -/
def out (p : Printed) (ch : UInt8) : Printed := { p with bytes := p.bytes ++ [ch] }

/-- `n += k`. -/
def count (p : Printed) (k : Int) : Printed := { p with n := p.n + k }

def put (p : Printed) (ch : UInt8) : Printed := (p.out ch).count 1

def puts (p : Printed) (bs : List UInt8) : Printed := bs.foldl put p

/-- `for(int i = 0; i < k; i++, n++)` over one byte. -/
def fill (p : Printed) (k : Int) (ch : UInt8) : Printed := p.puts (List.replicate k.toNat ch)

def Exact (p : Printed) : Prop := p.n = p.bytes.length

variable {p q : Printed}

theorem Exact.empty : empty.Exact := rfl

theorem Exact.put (h : p.Exact) (ch : UInt8) : (p.put ch).Exact := by
  simp only [Exact, Printed.put, count, out, List.length_append, List.length_singleton] at h ⊢
  omega

theorem Exact.two (h : p.Exact) (a b : UInt8) : (((p.out a).out b).count 2).Exact := by
  simp only [Exact, count, out, List.length_append, List.length_singleton] at h ⊢
  omega

theorem Exact.foldl {α : Type*} {f : Printed → α → Printed}
    (kept : ∀ {p a}, p.Exact → (f p a).Exact) (h : p.Exact) (l : List α) :
    (l.foldl f p).Exact := by
  induction l generalizing p with
  | nil => exact h
  | cons a l ih => exact ih (kept h)

theorem Exact.puts (h : p.Exact) (bs : List UInt8) : (p.puts bs).Exact :=
  h.foldl (fun h => h.put _) bs

theorem Exact.fill (h : p.Exact) (k : Int) (ch : UInt8) : (p.fill k ch).Exact := h.puts _

theorem Exact.ite {c : Prop} [Decidable c] (h : p.Exact) (k : q.Exact) :
    (if c then p else q).Exact := by
  split
  · exact h
  · exact k

theorem Exact.sign (h : p.Exact) (sign : Option UInt8) :
    (match sign with
      | some sign => p.put sign
      | none => p).Exact := by
  cases sign with
  | none => exact h
  | some sign => exact h.put sign

end Printed

def numBitCount (base number : Nat) : Nat :=
  if number / base = 0 ∨ base < 2 then 1 else numBitCount base (number / base) + 1
termination_by number
decreasing_by
  rename_i more
  have : 0 < number := Nat.pos_of_ne_zero fun zero => more (.inl (by simp [zero]))
  exact Nat.div_lt_self this (by omega)

/-- The buffer that the `num_rsh` loops fill from its end. -/
def numDigits (digits : List UInt8) (base : Nat) : Nat → Nat → List UInt8
  | 0, _ => []
  | count + 1, number =>
    numDigits digits base count (number / base) ++ [digits.getD (number % base) 0]

def vprintfChar (ch : UInt8) (fieldWidth : Int) (flags : Flags) : Printed :=
  let n := if fieldWidth ≤ 1 then 1 else fieldWidth
  let p := Printed.empty
  let p := if flags.left then p.out ch else p
  -- the loop does not count, `n` was set before
  let p := (List.replicate (fieldWidth - 1).toNat ' '.toUInt8).foldl Printed.out p
  let p := if flags.left then p else p.out ch
  { p with n := n }

/-- The bytes before the terminator, at most `precision` of them unless it is negative. -/
def stringBytes (s : List UInt8) (precision : Int) : List UInt8 :=
  let s := s.takeWhile (· ≠ 0)
  if precision < 0 then s else s.take precision.toNat

def vprintfString (s : Option (List UInt8)) (fieldWidth precision : Int) (flags : Flags) :
    Printed :=
  let s := stringBytes (s.getD (bytesOf "(null)")) precision
  let p := Printed.empty
  if fieldWidth < 0 then p.puts s
  else if fieldWidth ≤ s.length then p.puts s
  else
    let diff := fieldWidth - s.length
    let p := if flags.left then p else p.fill diff ' '.toUInt8
    let p := p.puts s
    if flags.left then p.fill diff ' '.toUInt8 else p

def exponentValidLen (flags : Flags) (flooredExp10 : Int) : Nat :=
  if flags.floatE then numBitCount 10 flooredExp10.natAbs else 0

def fractionalValidLen (components : DoubleComponents) (precision : Int) : Nat :=
  if precision > 0 then numBitCount 10 components.fractional.toNat else 0

def needBufMinSize (components : DoubleComponents) (precision : Int) (flags : Flags)
    (flooredExp10 : Int) : Nat :=
  max (max (numBitCount 10 components.integral.toNat)
      (fractionalValidLen components (clampPrecision precision)))
    (exponentValidLen flags flooredExp10)

/-- `alloc` says whether `eh_malloc` returns a buffer. Without one, the digits of a long number
are stored through a null pointer. -/
def vprintfFloatDecimalismOrNormalized (alloc : Bool) (components : DoubleComponents)
    (fieldWidth precision : Int) (flags : Flags) (flooredExp10 : Int) : Option Printed :=
  if formatStackCacheSize < needBufMinSize components precision flags flooredExp10 ∧ ¬alloc then
    none
  else
    let fractionalPrecisionPadLen :=
      if precision ≥ formatFloatPowersTabSize then precision - (formatFloatPowersTabSize - 1) else 0
    let precision := clampPrecision precision
    let sign : Option UInt8 :=
      if components.isNegative then some '-'.toUInt8
      else if flags.plus then some '+'.toUInt8
      else if flags.space then some ' '.toUInt8
      else none
    let dot := precision > 0 ∨ flags.special
    let exponentSignE := if flags.large then 'E'.toUInt8 else 'e'.toUInt8
    let exponentSign := if flooredExp10 ≥ 0 then '+'.toUInt8 else '-'.toUInt8
    let exponentLen := exponentValidLen flags flooredExp10
    let integralLen := numBitCount 10 components.integral.toNat
    let fractionalLen := fractionalValidLen components precision
    let fractionalPadLen := if precision > fractionalLen then precision - fractionalLen else 0
    let validLen := wrapInt ((if sign.isSome then 1 else 0) + integralLen +
      (if dot then 1 else 0) + fractionalPadLen + fractionalLen + fractionalPrecisionPadLen +
      (if flags.floatE then 2 + (if exponentLen < 2 then 2 else exponentLen) else 0))
    let padLen := if fieldWidth > validLen then wrapInt (fieldWidth - validLen) else 0
    let p := Printed.empty
    let p := if ¬flags.left ∧ ¬flags.zeropad then p.fill padLen ' '.toUInt8 else p
    let p := match sign with
      | some sign => p.put sign
      | none => p
    let p := if flags.zeropad then p.fill padLen '0'.toUInt8 else p
    let p := p.puts (numDigits smallDigits 10 integralLen components.integral.toNat)
    let p := if dot then p.put '.'.toUInt8 else p
    let p := p.fill fractionalPadLen '0'.toUInt8
    let p := p.puts (numDigits smallDigits 10 fractionalLen components.fractional.toNat)
    let p := p.fill fractionalPrecisionPadLen '0'.toUInt8
    let p :=
      if flags.floatE then
        let p := ((p.out exponentSignE).out exponentSign).count 2
        let p := if exponentLen < 2 then p.put '0'.toUInt8 else p
        p.puts (numDigits smallDigits 10 exponentLen flooredExp10.natAbs)
      else p
    some (if flags.left ∧ ¬flags.zeropad then p.fill padLen ' '.toUInt8 else p)

/-- The components that `%e` prints, and the exponent. -/
def floatEComponents (undefined : Undefined) (num : Float) (precision : Int) :
    DoubleComponents × Int :=
  let sign := signOf undefined.nanSign num
  let absNumber := if sign then -num else num
  if absNumber == 0 then
    (floatNormalizedDecentralized undefined sign precision absNumber ⟨0, false⟩ 0, 0)
  else
    let exp10 := log10OfPositive absNumber
    let flooredExp10 := bastardizedFloor exp10
    let p10 := pow10OfInt flooredExp10
    let (flooredExp10, p10) :=
      if absNumber < p10 then (flooredExp10 - 1, p10 / 10) else (flooredExp10, p10)
    let covered := (flooredExp10.natAbs : Int) < formatFloatPowersTabSize
    let rawFactor := if covered then powerOf10 flooredExp10.natAbs else p10
    (floatNormalizedDecentralized undefined sign precision absNumber
      ⟨rawFactor, flooredExp10 < 0 ∧ covered⟩ flooredExp10, flooredExp10)

def defaultPrecision (precision : Int) : Int := if precision < 0 then 6 else precision

def vprintfFloatE (alloc : Bool) (undefined : Undefined) (num : Float)
    (fieldWidth precision : Int) (flags : Flags) : Option Printed :=
  let precision := defaultPrecision precision
  let (components, flooredExp10) := floatEComponents undefined num precision
  vprintfFloatDecimalismOrNormalized alloc components fieldWidth precision flags flooredExp10

/-- `FORMAT_FLOAT_F_RANGE_MIN` and `FORMAT_FLOAT_F_RANGE_MAX`. -/
def outsideFRange (num : Float) : Bool := num < -1e18 ∨ 1e18 < num

def vprintfFloatForG (alloc : Bool) (undefined : Undefined) (num : Float)
    (fieldWidth precision : Int) (flags : Flags) : Option Printed :=
  if outsideFRange num then some .empty
  else
    let precision := defaultPrecision precision
    vprintfFloatDecimalismOrNormalized alloc (floatDecentralized undefined num precision)
      fieldWidth precision flags 0

def infOrNan (num : Float) (flags : Flags) : String :=
  if num.isInf then
    if num < 0 then if flags.large then "-INF" else "-inf"
    else if flags.plus then if flags.large then "+INF" else "+inf"
    else if flags.space then if flags.large then " INF" else " inf"
    else if flags.large then "INF" else "inf"
  else if flags.large then "NAN" else "nan"

def Flags.asE (flags : Flags) : Flags :=
  { flags with floatF := false, floatG := false, floatE := true }

/-- `alloc 0` and `alloc 1` are the answers of `eh_malloc` to the fixed and to the exponential
form. -/
def vprintfFloat (alloc : Nat → Bool) (undefined : Undefined) (num : Float)
    (fieldWidth precision : Int) (flags : Flags) : Option Printed :=
  if num.isInf ∨ num.isNaN then
    some (vprintfString (some (bytesOf (infOrNan num flags))) fieldWidth (-1) flags)
  else if flags.floatF ∨ flags.floatG then
    (vprintfFloatForG (alloc 0) undefined num fieldWidth precision flags).bind fun p =>
      if wrapInt p.n > 0 then some p
      else (vprintfFloatE (alloc 1) undefined num fieldWidth precision flags.asE).map fun q =>
        ⟨p.bytes ++ q.bytes, q.n⟩
  else vprintfFloatE (alloc 1) undefined num fieldWidth precision flags.asE

def FormatQualifier.itemSize : FormatQualifier → Nat
  | long | longLong => 8
  | short => 2
  | char => 1
  | none | sizeT => 4

def Printed.hexByte (p : Printed) (digits : List UInt8) (byte : UInt8) : Printed :=
  ((p.out (digits.getD (byte.toNat / 16 % 16) 0)).out (digits.getD (byte.toNat % 16) 0)).count 2

def Printed.item (p : Printed) (digits : List UInt8) (array : Nat → UInt8) (start size : Nat) :
    Printed :=
  (List.range size).reverse.foldl (fun p j => p.hexByte digits (array (start + j))) p

def vprintfArray (array : Nat → UInt8) (fieldWidth precision : Int) (flags : Flags)
    (qualifier : FormatQualifier) : Printed :=
  if precision < 0 then .empty
  else
    let digits := if flags.large then largeDigits else smallDigits
    let itemSize := qualifier.itemSize
    let arrayLen := precision.toNat / itemSize
    let remainder := precision.toNat % itemSize
    let arrayRealityLen : Int := arrayLen - (if remainder ≠ 0 then 1 else 0)
    let validLen := wrapInt (arrayRealityLen * (itemSize * 2) + (arrayRealityLen - 1))
    let padLen := if fieldWidth > validLen then wrapInt (fieldWidth - validLen) else 0
    let p := Printed.empty
    let p := if flags.left then p else p.fill padLen ' '.toUInt8
    let p := (List.range arrayLen).foldl (fun p i =>
      (if i ≠ 0 then p.put ' '.toUInt8 else p).item digits array (i * itemSize) itemSize) p
    let p :=
      if remainder ≠ 0 then
        let p := p.put ' '.toUInt8
        let p := (List.range (itemSize - remainder)).foldl
          (fun p _ => ((p.out '?'.toUInt8).out '?'.toUInt8).count 2) p
        p.item digits array (arrayLen * itemSize) remainder
      else p
    if flags.left then p.fill padLen ' '.toUInt8 else p

/-- `alloc` says whether `eh_malloc` returns a buffer. -/
def vprintfNumber (alloc : Bool) (num : BitVec 64) (fieldWidth precision : Int) (flags : Flags)
    (base : Nat) : Printed :=
  if base > 16 then .empty
  else
    let digits := if flags.large then largeDigits else smallDigits
    let negative := flags.signed ∧ num.toInt < 0
    let num := if negative then -num else num
    let sign : Option UInt8 :=
      if negative then some '-'.toUInt8
      else if flags.plus then some '+'.toUInt8
      else if flags.space then some ' '.toUInt8
      else none
    let bitCount := numBitCount base num.toNat
    if formatStackCacheSize < bitCount ∧ ¬alloc then .empty
    else
      let number := numDigits digits base bitCount num.toNat
      let special := bytesOf <|
        if ¬flags.special then ""
        else if base = 8 then "0"
        else if base = 16 then if flags.large then "0X" else "0x"
        else if base = 2 then if flags.large then "0B" else "0b"
        else ""
      let realityCount : Int := (if sign.isSome then 1 else 0) + special.length + bitCount
      let zeropad := flags.zeropad ∧ precision < 0
      let zeropadCount := if precision > bitCount then precision - bitCount else 0
      let realityCount := wrapInt (realityCount + zeropadCount)
      let wide := fieldWidth > realityCount
      let zeropadCount := if wide ∧ zeropad then wrapInt (fieldWidth - realityCount) else zeropadCount
      let spacepadCount := if wide ∧ ¬zeropad then wrapInt (fieldWidth - realityCount) else 0
      let p := Printed.empty
      let p := if flags.left then p else p.fill spacepadCount ' '.toUInt8
      let p := match sign with
        | some sign => p.put sign
        | none => p
      let p := p.puts special
      let p := p.fill zeropadCount '0'.toUInt8
      let p := p.puts number
      if flags.left then p.fill spacepadCount ' '.toUInt8 else p

section Exact
variable {components : DoubleComponents} {undefined : Undefined} {num : Float}
  {fieldWidth precision flooredExp10 : Int}
  {flags : Flags} {p : Printed}

theorem vprintfChar_exact (ch : UInt8) : (vprintfChar ch fieldWidth flags).Exact := by
  have outs : ∀ (l : List UInt8) (p : Printed), (l.foldl Printed.out p).bytes = p.bytes ++ l := by
    intro l
    induction l with
    | nil => simp
    | cons c l ih => simp [ih, Printed.out]
  simp only [Printed.Exact, vprintfChar]
  by_cases left : flags.left
  · simp only [left, if_true, outs, Printed.out, Printed.empty, List.length_append,
      List.length_replicate, List.length_nil, List.length_singleton]
    split <;> omega
  · simp only [left, Bool.false_eq_true, if_false, outs, Printed.out, Printed.empty,
      List.length_append, List.length_replicate, List.length_nil, List.length_singleton]
    split <;> omega

theorem vprintfString_exact (s : Option (List UInt8)) :
    (vprintfString s fieldWidth precision flags).Exact := by
  have start := Printed.Exact.empty
  unfold vprintfString
  exact .ite (start.puts _) (.ite (start.puts _)
    (.ite (((Printed.Exact.ite start (start.fill ..)).puts _).fill ..)
      ((Printed.Exact.ite start (start.fill ..)).puts _)))

theorem vprintfNumber_exact (alloc : Bool) (num : BitVec 64) (base : Nat) :
    (vprintfNumber alloc num fieldWidth precision flags base).Exact := by
  have start := Printed.Exact.empty
  unfold vprintfNumber
  refine .ite start (.ite start ?_)
  refine .ite (.fill ?_ ..) ?_
  all_goals exact (((Printed.Exact.sign (.ite start (start.fill ..)) _).puts _).fill ..).puts _

theorem Printed.Exact.hexByte (h : p.Exact) (digits : List UInt8) (byte : UInt8) :
    (p.hexByte digits byte).Exact := h.two ..

theorem Printed.Exact.item (h : p.Exact) (digits : List UInt8) (array : Nat → UInt8)
    (start size : Nat) : (p.item digits array start size).Exact :=
  h.foldl (fun h => h.hexByte ..) _

theorem vprintfArray_exact (array : Nat → UInt8) (qualifier : FormatQualifier) :
    (vprintfArray array fieldWidth precision flags qualifier).Exact := by
  have start := Printed.Exact.empty
  unfold vprintfArray
  refine .ite start ?_
  have items : ∀ {p : Printed} {i : Nat} (digits : List UInt8) (size : Nat), p.Exact →
      ((if i ≠ 0 then p.put ' '.toUInt8 else p).item digits array (i * size) size).Exact :=
    fun digits size h => (Printed.Exact.ite (h.put _) h).item ..
  refine .ite (.fill ?_ ..) ?_
  all_goals
    refine .ite (.item (.foldl (fun h => h.two ..) (.put ?_ _) _) ..) ?_
    all_goals exact .foldl (fun h => items _ _ h) (.ite start (start.fill ..)) _

theorem vprintfFloatDecimalismOrNormalized_exact {alloc : Bool}
    (run : vprintfFloatDecimalismOrNormalized alloc components fieldWidth precision flags
      flooredExp10 = some p) : p.Exact := by
  have start := Printed.Exact.empty
  unfold vprintfFloatDecimalismOrNormalized at run
  split at run
  · cases run
  · obtain rfl := Option.some.inj run
    -- the exponent stands behind the digits
    refine .ite (.fill (.ite (.puts (.ite (.put (.two ?_ ..) _) (.two ?_ ..)) _) ?_) ..)
      (.ite (.puts (.ite (.put (.two ?_ ..) _) (.two ?_ ..)) _) ?_)
    all_goals
      refine .fill (.puts (.fill (.ite (.put (.puts ?_ _) _) (.puts ?_ _)) ..) _) ..
      all_goals
        refine .ite (.fill (.sign ?_ _) ..) (.sign ?_ _)
        all_goals exact .ite (start.fill ..) start

theorem vprintfFloatForG_exact {alloc : Bool}
    (run : vprintfFloatForG alloc undefined num fieldWidth precision flags = some p) : p.Exact := by
  unfold vprintfFloatForG at run
  split at run
  · obtain rfl := Option.some.inj run
    exact .empty
  · exact vprintfFloatDecimalismOrNormalized_exact run

theorem vprintfFloat_exact {alloc : Nat → Bool} (small : p.bytes.length ≤ 2147483647)
    (run : vprintfFloat alloc undefined num fieldWidth precision flags = some p) : p.Exact := by
  unfold vprintfFloat at run
  split at run
  · obtain rfl := Option.some.inj run
    exact vprintfString_exact _
  split at run
  · obtain ⟨q, first, rest⟩ := Option.bind_eq_some_iff.mp run
    have exactQ := vprintfFloatForG_exact first
    split at rest
    · obtain rfl := Option.some.inj rest
      exact exactQ
    · next wrapped =>
      obtain ⟨r, second, rfl⟩ := Option.map_eq_some_iff.mp rest
      have exactR := vprintfFloatDecimalismOrNormalized_exact second
      simp only [Printed.Exact, wrapInt, List.length_append] at *
      omega
  · exact vprintfFloatDecimalismOrNormalized_exact run

end Exact

section Buffers
variable {undefined : Undefined} {num : Float} {fieldWidth precision : Int} {flags : Flags}

/-- The digits find room on the stack or in a buffer from `eh_malloc`. -/
def Fits (alloc : Bool) (components : DoubleComponents) (precision : Int) (flags : Flags)
    (flooredExp10 : Int) : Prop :=
  needBufMinSize components precision flags flooredExp10 ≤ formatStackCacheSize ∨ alloc = true

def InRange (num : Float) (flags : Flags) : Prop :=
  (flags.floatF ∨ flags.floatG) ∧ ¬outsideFRange num

instance (num : Float) (flags : Flags) : Decidable (InRange num flags) :=
  inferInstanceAs (Decidable (_ ∧ _))

def fixedLength (undefined : Undefined) (num : Float) (fieldWidth precision : Int)
    (flags : Flags) : Nat :=
  ((vprintfFloatForG true undefined num fieldWidth precision flags).getD .empty).bytes.length

/-- Neither form of the number that is printed stores its digits through a null pointer. -/
def FloatFits (alloc : Nat → Bool) (undefined : Undefined) (num : Float)
    (fieldWidth precision : Int) (flags : Flags) : Prop :=
  ¬(num.isInf ∨ num.isNaN) →
    (InRange num flags →
      Fits (alloc 0) (floatDecentralized undefined num (defaultPrecision precision))
        (defaultPrecision precision) flags 0) ∧
    (¬(InRange num flags ∧ wrapInt (fixedLength undefined num fieldWidth precision flags) > 0) →
      Fits (alloc 1) (floatEComponents undefined num (defaultPrecision precision)).1
        (defaultPrecision precision) flags.asE
        (floatEComponents undefined num (defaultPrecision precision)).2)

theorem vprintfFloatDecimalismOrNormalized_fits {alloc : Bool} {components : DoubleComponents}
    {flooredExp10 : Int} :
    (vprintfFloatDecimalismOrNormalized alloc components fieldWidth precision flags
      flooredExp10).isSome ↔ Fits alloc components precision flags flooredExp10 := by
  unfold vprintfFloatDecimalismOrNormalized Fits
  split
  · next short => simpa using short
  · next enough =>
    rw [not_and_or, not_not, Nat.not_lt] at enough
    simpa using enough

theorem vprintfFloatE_fits {alloc : Bool} : (vprintfFloatE alloc undefined num fieldWidth precision
    flags).isSome ↔ Fits alloc (floatEComponents undefined num (defaultPrecision precision)).1
      (defaultPrecision precision) flags (floatEComponents undefined num (defaultPrecision precision)).2 :=
  vprintfFloatDecimalismOrNormalized_fits

theorem vprintfFloatForG_fits (alloc : Bool) (undefined : Undefined)
    (fieldWidth precision : Int) (flags : Flags) (range : outsideFRange num = false) :
    (vprintfFloatForG alloc undefined num fieldWidth precision flags).isSome ↔
      Fits alloc (floatDecentralized undefined num (defaultPrecision precision))
        (defaultPrecision precision) flags 0 := by
  unfold vprintfFloatForG
  rw [range, if_neg Bool.false_ne_true]
  exact vprintfFloatDecimalismOrNormalized_fits

theorem vprintfFloatDecimalismOrNormalized_mono {alloc : Bool} {components : DoubleComponents}
    {flooredExp10 : Int} {p : Printed}
    (run : vprintfFloatDecimalismOrNormalized alloc components fieldWidth precision flags
      flooredExp10 = some p) :
    vprintfFloatDecimalismOrNormalized true components fieldWidth precision flags
      flooredExp10 = some p := by
  unfold vprintfFloatDecimalismOrNormalized at run ⊢
  by_cases short :
      formatStackCacheSize < needBufMinSize components precision flags flooredExp10 ∧ ¬alloc
  · rw [if_pos short] at run
    cases run
  · rw [if_neg short] at run
    rw [if_neg fun short => short.2 rfl]
    exact run

theorem fixedLength_eq {alloc : Bool} {p : Printed} (range : outsideFRange num = false)
    (run : vprintfFloatForG alloc undefined num fieldWidth precision flags = some p) :
    (fixedLength undefined num fieldWidth precision flags : Int) = p.n := by
  have exactP : p.n = p.bytes.length := vprintfFloatForG_exact run
  unfold fixedLength vprintfFloatForG at *
  rw [range, if_neg Bool.false_ne_true] at *
  rw [vprintfFloatDecimalismOrNormalized_mono run, exactP]
  rfl

theorem vprintfFloat_fits {alloc : Nat → Bool} :
    (vprintfFloat alloc undefined num fieldWidth precision flags).isSome ↔
      FloatFits alloc undefined num fieldWidth precision flags := by
  unfold vprintfFloat FloatFits
  by_cases special : num.isInf ∨ num.isNaN
  · rw [if_pos special]
    exact ⟨fun _ finite => absurd special finite, fun _ => rfl⟩
  rw [if_neg special, forall_prop_of_true special]
  by_cases fixed : flags.floatF ∨ flags.floatG
  · rw [if_pos fixed]
    cases range : outsideFRange num with
    | true =>
      have out : ¬InRange num flags := fun range' => range'.2 range
      have none : vprintfFloatForG (alloc 0) undefined num fieldWidth precision flags = some .empty := by
        unfold vprintfFloatForG
        rw [range, if_pos rfl]
      rw [none, Option.bind_some, if_neg (by decide), Option.isSome_map, vprintfFloatE_fits]
      simp [out]
    | false =>
      have inside : InRange num flags := ⟨fixed, by simp [range]⟩
      rw [forall_prop_of_true inside]
      have fits := vprintfFloatForG_fits (alloc 0) undefined fieldWidth precision flags range
      cases first : vprintfFloatForG (alloc 0) undefined num fieldWidth precision flags with
      | none =>
        rw [first] at fits
        simp [← fits]
      | some p =>
        rw [first] at fits
        have enough := fits.mp rfl
        rw [fixedLength_eq range first, Option.bind_some]
        by_cases counted : wrapInt p.n > 0
        · simp [counted, inside, enough]
        · rw [if_neg counted, Option.isSome_map, vprintfFloatE_fits]
          simp [counted, enough]
  · have out : ¬InRange num flags := fun range => fixed range.1
    rw [if_neg fixed, vprintfFloatE_fits]
    simp [out]

-- `%e` of zero, where the machine takes the NaN 0/0 for 2 ^ 63
example : ¬Fits false
    (floatEComponents ⟨9223372036854775808, 9223372036854775808, true⟩ 0 6).1 6 {} 0 := by
  unfold Fits
  decide +kernel

end Buffers

end EventHub.Formatio
