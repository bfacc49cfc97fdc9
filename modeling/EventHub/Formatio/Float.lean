import Mathlib.Data.List.Basic
import Mathlib.Tactic.Ring

/-! The binary floating point arithmetic behind `%e`, `%f` and `%g`: a double is split into an
integral and a fractional decimal part. `Float` is the machine's double. -/

namespace EventHub.Formatio

/-- The value of an `int`, in two's complement. -/
def wrapInt (x : Int) : Int := (x + 2147483648) % 4294967296 - 2147483648

/-- What the language leaves to the machine in a floating point conversion: the results of
`(uint64_t)x` for the integral and for the fractional part where `x` has no value in the range,
and the sign of a NaN. -/
structure Undefined where
  integral : UInt64
  fractional : UInt64
  nanSign : Bool

/-- `powers_of_10`, with `FORMAT_FLOAT_POWERS_TAB_SIZE` entries. -/
def powersOf10 : List Float :=
  [1e00, 1e01, 1e02, 1e03, 1e04, 1e05, 1e06, 1e07, 1e08,
    1e09, 1e10, 1e11, 1e12, 1e13, 1e14, 1e15, 1e16, 1e17, 1e18]

def formatFloatPowersTabSize : Int := 19

def dblMax10Exp : Int := 308

/-- `powers_of_10[k]`. -/
def powerOf10 (k : Int) : Float := powersOf10.getD k.toNat 0

structure DoubleComponents where
  integral : UInt64
  fractional : UInt64
  isNegative : Bool

structure ScalingFactor where
  rawFactor : Float
  multiply : Bool

/-- The fields of `union double_union`. -/
def exponentOf (d : Float) : Nat := d.toBits.toNat / 2 ^ 52 % 2048

def signOf (nanSign : Bool) (d : Float) : Bool :=
  if d.isNaN then nanSign else 2 ^ 63 ≤ d.toBits.toNat

def setExponent (d : Float) (exponent : Nat) : Float :=
  let bits := d.toBits.toNat
  Float.ofBits (UInt64.ofNat (bits / 2 ^ 63 * 2 ^ 63 + exponent * 2 ^ 52 + bits % 2 ^ 52))

/-- `(uint64_t)x`. -/
def toUint64 (undefined : UInt64) (x : Float) : UInt64 :=
  if -1 < x ∧ x < 18446744073709551616 then x.toUInt64 else undefined

/-- `(int)x`, rounding towards zero. -/
def truncate (x : Float) : Int :=
  if 0 ≤ x then x.toUInt64.toNat else -((-x).toUInt64.toNat : Int)

def bastardizedFloor (x : Float) : Int :=
  let n := truncate x
  if 0 ≤ x then n else if Float.ofInt n == x then n else n - 1

def pow10OfInt (flooredExp10 : Int) : Float :=
  if flooredExp10 = -dblMax10Exp then 1e-308
  else
    let exp2 := bastardizedFloor (Float.ofInt flooredExp10 * 3.321928094887362 + 0.5)
    let z := Float.ofInt flooredExp10 * 2.302585092994046 - Float.ofInt exp2 * 0.6931471805599453
    let z2 := z * z
    let d := setExponent (Float.ofBits 0) ((exp2 + 1023) % 2048).toNat
    d * (1 + 2 * z / (2 - z + (z2 / (6 + (z2 / (10 + z2 / 14))))))

def log10OfPositive (positiveNumber : Float) : Float :=
  let exp2 : Int := (exponentOf positiveNumber : Int) - 1023
  let z := setExponent positiveNumber 1023 - 1.5
  0.1760912590556812420 + z * 0.2895296546021678851 - z * z * 0.0965098848673892950 +
    z * z * z * 0.0428932821632841311 + Float.ofInt exp2 * 0.30102999566398119521

def applyScaling (num : Float) (normalization : ScalingFactor) : Float :=
  if normalization.multiply then num * normalization.rawFactor
  else num / normalization.rawFactor

def unapplyScaling (normalized : Float) (normalization : ScalingFactor) : Float :=
  if normalization.multiply then normalized / normalization.rawFactor
  else normalized * normalization.rawFactor

def updateNormalization (sf : ScalingFactor) (extraMultiplicativeFactor : Float) :
    ScalingFactor :=
  if sf.multiply then ⟨sf.rawFactor * extraMultiplicativeFactor, true⟩
  else
    let factorExp2 : Int := (exponentOf sf.rawFactor : Int) - 1023
    let extraFactorExp2 : Int := (exponentOf extraMultiplicativeFactor : Int) - 1023
    -- the larger exponent is divided by the smaller one
    if factorExp2.natAbs > extraFactorExp2.natAbs then
      ⟨sf.rawFactor / extraMultiplicativeFactor, false⟩
    else ⟨extraMultiplicativeFactor / sf.rawFactor, true⟩

def clampPrecision (precision : Int) : Int :=
  if precision ≥ formatFloatPowersTabSize then formatFloatPowersTabSize - 1 else precision

def floatDecentralized (undefined : Undefined) (num : Float) (precision : Int) :
    DoubleComponents :=
  let isNegative := signOf undefined.nanSign num
  let absNumber := if isNegative then -num else num
  let integral := toUint64 undefined.integral absNumber
  let precision := clampPrecision precision
  let scaled := (absNumber - Float.ofNat integral.toNat) * powerOf10 precision
  let fractional := toUint64 undefined.fractional scaled
  let remainder := scaled - Float.ofNat fractional.toNat
  let (integral, fractional) :=
    if 0.5 < remainder then
      if powerOf10 precision ≤ Float.ofNat (fractional + 1).toNat then (integral + 1, 0)
      else (integral, fractional + 1)
    else if remainder == 0.5 ∧ (fractional = 0 ∨ fractional &&& 1 = 1) then
      (integral, fractional + 1)
    else (integral, fractional)
  if precision = 0 then
    let remainder := absNumber - Float.ofNat integral.toNat
    if (¬remainder < 0.5 ∨ 0.5 < remainder) ∧ integral &&& 1 = 1 then
      ⟨integral + 1, fractional, isNegative⟩
    else ⟨integral, fractional, isNegative⟩
  else ⟨integral, fractional, isNegative⟩

/-- Of zero, `normalization` makes the NaN 0/0. -/
def floatNormalizedDecentralized (undefined : Undefined) (negative : Bool) (precision : Int)
    (nonNormalized : Float) (normalization : ScalingFactor) (flooredExp10 : Int) :
    DoubleComponents :=
  let scaled := applyScaling nonNormalized normalization
  let closeToRepresentationExtremum := wrapInt (-flooredExp10 + precision) ≥ dblMax10Exp - 1
  let precision := clampPrecision precision
  if closeToRepresentationExtremum then
    floatDecentralized undefined (if negative then -scaled else scaled) precision
  else
    let integral := toUint64 undefined.integral scaled
    let remainder := nonNormalized - unapplyScaling (Float.ofNat integral.toNat) normalization
    let precPowerOf10 := powerOf10 precision
    let accountForPrecision := updateNormalization normalization precPowerOf10
    let scaledRemainder := applyScaling remainder accountForPrecision
    let fractional := toUint64 undefined.fractional scaledRemainder
    let scaledRemainder := scaledRemainder - Float.ofNat fractional.toNat
    let fractional := if 0.5 ≤ scaledRemainder then fractional + 1 else fractional
    let fractional := if scaledRemainder == 0.5 then fractional &&& ~~~1 else fractional
    if precPowerOf10 ≤ Float.ofNat fractional.toNat then ⟨integral + 1, 0, negative⟩
    else ⟨integral, fractional, negative⟩

end EventHub.Formatio
