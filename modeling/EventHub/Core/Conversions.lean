import EventHub.Core.Idle

/-! The four conversions between times and clocks: what is scaled by `num / den` in 64 bits. -/

namespace EventHub.Core
open Timer

def ehUsecToClock (clocksPerSec usec : Nat) : Nat :=
  let clock := (usec / 1000000 * clocksPerSec % clockSpan +
    usec % 1000000 * clocksPerSec % clockSpan / 1000000) % clockSpan
  if clock ≠ 0 then clock else if usec ≠ 0 then 1 else 0

def ehClockToMsec (clocksPerSec clock : Nat) : Nat :=
  let msec := (clock / clocksPerSec * 1000 % clockSpan +
    clock % clocksPerSec * 1000 % clockSpan / clocksPerSec) % clockSpan
  if msec ≠ 0 then msec else if clock ≠ 0 then 1 else 0

def convert (num den x : Nat) : Nat :=
  let scaled := (x / den * num % clockSpan + x % den * num % clockSpan / den) % clockSpan
  if scaled ≠ 0 then scaled else if x ≠ 0 then 1 else 0

def checked (n : Nat) : Option Nat := if n < clockSpan then some n else none

def convertChecked (num den x : Nat) : Option Nat := do
  let whole ← checked (x / den * num)
  let part ← checked (x % den * num)
  let scaled ← checked (whole + part / den)
  pure (if scaled ≠ 0 then scaled else if x ≠ 0 then 1 else 0)

def Fits (num den x : Nat) : Prop := x < clockSpan ∧ x * num / den < clockSpan

/-- `f` is scaling by `num / den`, with a result of one at least where there is anything to
scale. -/
structure Scales (num den : Nat) (f : Nat → Nat) : Prop where
  checked : ∀ {x}, Fits num den x → convertChecked num den x = some (f x)
  exact : ∀ {x}, Fits num den x → f x = max (x * num / den) (min x 1)
  mono : ∀ {x y}, x ≤ y → Fits num den y → f x ≤ f y
  zero : ∀ {x}, Fits num den x → (f x = 0 ↔ x = 0)

/-- `back` undoes `there` up to one unit. -/
def RoundTrips (unit clocksPerSec : Nat) (there back : Nat → Nat) : Prop :=
  ∀ x, Fits clocksPerSec unit x → unit ≤ clocksPerSec →
    x ≤ back (there x) + 1 ∧ back (there x) ≤ x ∧ (unit ∣ clocksPerSec → back (there x) = x)

variable {num den x y unit clocksPerSec : Nat}

theorem split_floor (pos : 0 < den) (num x : Nat) :
    x / den * num + x % den * num / den = x * num / den := by
  have parts : x * num = x % den * num + den * (x / den * num) := by
    conv_lhs => rw [← Nat.mod_add_div x den]
    rw [Nat.add_mul, Nat.mul_assoc]
  rw [parts, Nat.add_mul_div_left _ _ pos, Nat.add_comm]

theorem convert_of_checked {v : Nat} (h : convertChecked num den x = some v) :
    convert num den x = v := by
  have keeps : ∀ {n k}, checked n = some k → n % clockSpan = k := by
    intro n k stored
    unfold checked at stored
    split at stored
    · cases stored
      exact Nat.mod_eq_of_lt ‹_›
    · cases stored
  simp only [convertChecked, Option.bind_eq_bind, Option.bind_eq_some_iff, Option.pure_def,
    Option.some_inj] at h
  obtain ⟨whole, fitsW, part, fitsP, sum, fitsS, rfl⟩ := h
  rw [convert, keeps fitsW, keeps fitsP, keeps fitsS]

theorem convertChecked_eq (pos : 0 < den) (room : den * num < clockSpan)
    (fits : Fits num den x) :
    convertChecked num den x = some (max (x * num / den) (min x 1)) := by
  have sum := split_floor pos num x
  have part : x % den * num < clockSpan :=
    (Nat.mul_le_mul_right num (Nat.mod_lt x pos).le).trans_lt room
  have whole : x / den * num < clockSpan := (Nat.le.intro sum).trans_lt fits.2
  have stored : ∀ {n}, n < clockSpan → checked n = some n := fun lt => if_pos lt
  simp only [convertChecked, stored whole, stored part, Option.bind_eq_bind, Option.bind_some, sum,
    stored fits.2, Option.pure_def, Option.some_inj]
  generalize x * num / den = exact
  split_ifs <;> omega

theorem scales_convert (pos : 0 < den) (room : den * num < clockSpan) :
    Scales num den (convert num den) := by
  have value : ∀ {x}, Fits num den x →
      convert num den x = max (x * num / den) (min x 1) := fun fits =>
    convert_of_checked (convertChecked_eq pos room fits)
  refine ⟨fun fits => ?_, value, fun {x y} le fits => ?_, fun {x} fits => ?_⟩
  · rw [convertChecked_eq pos room fits, value fits]
  · have below : x * num / den ≤ y * num / den :=
      Nat.div_le_div_right (Nat.mul_le_mul_right num le)
    rw [value fits, value ⟨le.trans_lt fits.1, below.trans_lt fits.2⟩]
    exact max_le_max below (min_le_min_right 1 le)
  · rw [value fits]
    constructor
    · intro null
      have := (le_max_right (x * num / den) (min x 1)).trans null.le
      omega
    · rintro rfl
      simp

theorem floor_back (pos : 0 < unit) (many : unit ≤ clocksPerSec) (x : Nat) :
    x ≤ x * clocksPerSec / unit * unit / clocksPerSec + 1 ∧
      x * clocksPerSec / unit * unit / clocksPerSec ≤ x := by
  have posC : 0 < clocksPerSec := pos.trans_le many
  have lower : x * clocksPerSec < x * clocksPerSec / unit * unit + unit :=
    Nat.lt_div_mul_add pos
  constructor
  · rw [← Nat.add_div_right _ posC]
    refine (Nat.le_div_iff_mul_le posC).mpr (lower.le.trans ?_)
    exact Nat.add_le_add_left many _
  · refine Nat.div_le_of_le_mul ?_
    rw [Nat.mul_comm clocksPerSec]
    exact Nat.div_mul_le_self _ _

theorem roundTrips_convert (pos : 0 < unit) (room : unit * clocksPerSec < clockSpan) :
    RoundTrips unit clocksPerSec (convert clocksPerSec unit)
      (convert unit clocksPerSec) := by
  intro x fits many
  have posC : 0 < clocksPerSec := pos.trans_le many
  have there := scales_convert pos room
  have back : Scales unit clocksPerSec (convert unit clocksPerSec) :=
    scales_convert posC (by rwa [Nat.mul_comm])
  obtain ⟨lower, upper⟩ := floor_back pos many x
  -- a time that is not zero is one clock at least
  have clocks : x ≤ x * clocksPerSec / unit :=
    (Nat.le_div_iff_mul_le pos).mpr (Nat.mul_le_mul_left x many)
  have value : convert clocksPerSec unit x = x * clocksPerSec / unit := by
    rw [there.exact fits]
    exact max_eq_left ((min_le_left x 1).trans clocks)
  have fits' : Fits unit clocksPerSec (x * clocksPerSec / unit) :=
    ⟨fits.2, upper.trans_lt fits.1⟩
  rw [value, back.exact fits']
  have least : min (x * clocksPerSec / unit) 1 ≤ x := by
    rcases Nat.eq_zero_or_pos x with rfl | some
    · simp
    · exact (min_le_right _ 1).trans some
  refine ⟨?_, max_le upper least, ?_⟩
  · exact lower.trans (Nat.add_le_add_right (le_max_left ..) 1)
  · rintro ⟨k, rfl⟩
    have clock : x * (unit * k) / unit = x * k := by
      rw [Nat.mul_left_comm, Nat.mul_div_cancel_left _ pos]
    have same : x * k * unit / (unit * k) = x := by
      rw [Nat.mul_assoc, Nat.mul_comm k, Nat.mul_div_cancel _ posC]
    rw [clock] at least ⊢
    rw [same]
    exact max_eq_left least

/-- For every frequency: the conversions are exact, nothing in them overflows, they are monotone
and only zero becomes zero; a time comes back less than a unit short, and exactly where the
clock ticks at a multiple of the unit. -/
theorem clock_conversions {clocksPerSec : Nat} (pos : 1 ≤ clocksPerSec)
    (room : 1000000 * clocksPerSec < clockSpan) :
    (Scales clocksPerSec 1000 (ehMsecToClock clocksPerSec) ∧
      Scales clocksPerSec 1000000 (ehUsecToClock clocksPerSec) ∧
      Scales 1000 clocksPerSec (ehClockToMsec clocksPerSec) ∧
      Scales 1000000 clocksPerSec (ehClockToUsec clocksPerSec)) ∧
    RoundTrips 1000 clocksPerSec (ehMsecToClock clocksPerSec) (ehClockToMsec clocksPerSec) ∧
    RoundTrips 1000000 clocksPerSec (ehUsecToClock clocksPerSec)
      (ehClockToUsec clocksPerSec) := by
  have milli : 1000 * clocksPerSec < clockSpan := by omega
  refine ⟨⟨?_, ?_, ?_, ?_⟩, ?_, ?_⟩
  · exact scales_convert (by decide) milli
  · exact scales_convert (by decide) room
  · exact scales_convert pos (by rwa [Nat.mul_comm])
  · exact scales_convert pos (by rwa [Nat.mul_comm])
  · exact roundTrips_convert (by decide) milli
  · exact roundTrips_convert (by decide) room

theorem clock_conversions_quartz :
    1000000 * 32768 < clockSpan ∧ Fits 32768 1000 1 ∧
      ehClockToMsec 32768 (ehMsecToClock 32768 1) ≤ 1 := by
  have fits : Fits 32768 1000 1 := ⟨by decide, by decide⟩
  obtain ⟨-, back, -⟩ := clock_conversions (show 1 ≤ 32768 by decide) (by decide)
  exact ⟨by decide, fits, (back 1 fits (by decide)).2.1⟩

end EventHub.Core
