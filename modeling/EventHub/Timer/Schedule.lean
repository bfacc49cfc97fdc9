import EventHub.Timer.Punctual

/-! Runs in which the clock never goes back and no running timer is ever overdue by
`2 ^ 63` ticks or more. -/

namespace EventHub.Timer
open RbTree Library

/-- The timers with the time of the last reading of the clock, and what runs until when. -/
structure System where
  timers : Timers
  clock : Nat
  agenda : Agenda Nat Nat

namespace System

/-- The clock does not go back, and no running timer is overdue by `2 ^ 63` or more. -/
def Readable (s : System) (t : Nat) : Prop :=
  s.clock ≤ t ∧ ∀ e ∈ s.agenda.entries, t < e.expiry + 9223372036854775808

def readsClock : Op → Bool
  | .start _ | .restart _ | .check _ | .firstRemaining => true
  | .stop _ | .configInterval .. | .setAttr .. => false

/-- What a call at time `t` means for the agenda. -/
def follow (s : System) (t : Nat) : Op → Agenda Nat Nat
  | .start x =>
    if x ∈ s.agenda.keys then s.agenda
    else s.agenda.add x (t + (s.timers.timer x).interval.toNat)
  | .stop x => s.agenda.remove x
  | .restart x => (s.agenda.remove x).add x (t + (s.timers.timer x).interval.toNat)
  | .check _ => s.agenda.fire t (rearm s.timers.timer t)
  | .firstRemaining | .configInterval .. | .setAttr .. => s.agenda

def Legal (s : System) (t : Nat) (op : Op) : Prop :=
  (readsClock op = true → s.Readable t) ∧
    ∀ x interval, op = .configInterval x interval →
      0 < interval ∧ interval < 9223372036854775808

/-- A call at time `t`, of which the code reads the low 64 bits. -/
def Step (clocksPerSec : Nat) (s : System) (op : Nat × Op) (s' : System) : Prop :=
  s.Legal op.1 op.2 ∧ exec clocksPerSec s.timers (op.1 % clockSpan) op.2 = .ok s'.timers ∧
    s'.clock = (if readsClock op.2 then op.1 else s.clock) ∧ s'.agenda = s.follow op.1 op.2

def initial (timer : Nat → EhEventTimer) : System := ⟨.initial timer, 0, .empty⟩

def Reach (clocksPerSec : Nat) (timer : Nat → EhEventTimer) (ops : List (Nat × Op))
    (s : System) : Prop :=
  Run (Step clocksPerSec) (initial timer) ops s

end System

/-- What holds between the calls; `FIRST_TIMER_MAX_TIME` is taken from `clocksPerSec`. -/
structure System.Sound (clocksPerSec : Nat) (s : System) : Prop where
  running : ∀ x, (s.timers.timer x).running = true ↔ ∃ e ∈ s.agenda.entries, e.key = x
  /-- The tree lists the running timers by expiry, and those of one expiry as they were
  added. -/
  order : s.timers.nodes = s.agenda.entries.map Entry.key
  earlier : s.agenda.entries.Pairwise Entry.Earlier
  nodup : s.timers.nodes.Nodup
  remaining : ∀ e ∈ s.agenda.entries, s.timers.remaining e.key = e.expiry - s.clock
  sorted : s.timers.nodes.Pairwise fun x y => s.timers.remaining x ≤ s.timers.remaining y
  due_first : ∀ t, s.Readable t → (s.timers.readClock (t % clockSpan)).DuePrefix
  leftmost_none : s.timers.timerTreeRoot.leftmost = none ↔ s.timers.nodes = []
  leftmost : ∀ x, s.timers.timerTreeRoot.leftmost = some x →
    x ∈ s.timers.nodes ∧ ∀ y ∈ s.timers.nodes, s.timers.remaining x ≤ s.timers.remaining y
  first_remaining : ∀ t, s.Readable t → ∃ timers' r,
    s.timers.ehTimerGetFirstRemainingTime clocksPerSec (t % clockSpan) = some (timers', r) ∧
    (s.agenda.entries = [] → r = firstTimerMaxTime clocksPerSec) ∧
    ∀ e ∈ s.agenda.entries, (∀ b ∈ s.agenda.entries, e.expiry ≤ b.expiry) →
      r = max 0 (min (e.expiry - t : Int) (firstTimerMaxTime clocksPerSec))
  /-- A check at `t` notifies exactly what expires at or before `t`, in order; with that
  the other timers stay, the periodic ones are armed again, and nothing is left due. -/
  check : ∀ t, s.Readable t → ∀ fuel, s.timers.nodes.length ≤ fuel → ∃ timers',
    s.timers.ehTimerCheck fuel (t % clockSpan) =
      .ok (timers', (s.agenda.entries.filter (·.expiry ≤ t)).map Entry.key) ∧
    (∀ x, (∀ e ∈ s.agenda.entries, e.key = x → t < e.expiry) →
      timers'.timer x = s.timers.timer x) ∧
    (∀ e ∈ s.agenda.entries, e.expiry ≤ t → timers'.timer e.key =
      if (s.timers.timer e.key).autoCirculation
      then { s.timers.timer e.key with
        expire := (s.timers.timer e.key).nextExpiry t e.expiry % clockSpan, running := true }
      else { s.timers.timer e.key with running := false }) ∧
    ∀ x, (timers'.timer x).running = true → 0 < timers'.remaining x

namespace System
variable {s s' : System} {clocksPerSec t : Nat}

structure Inv (s : System) : Prop where
  keeps : Keeps s.timers s.clock s.agenda
  positive : ∀ x, 0 < (s.timers.timer x).interval

theorem Inv.readClock (h : s.Inv) (readable : s.Readable t) :
    Keeps (s.timers.readClock (t % clockSpan)) t s.agenda :=
  h.keeps.readClock readable.1 readable.2

theorem arm {s : Timers} {a : Agenda Nat Nat} {x : Nat} (h : Keeps s t a)
    (idle : (s.timer x).running = false) (positive : 0 < (s.timer x).interval) :
    ∃ s' ret, s.startNoLock (t % clockSpan) x = some (s', ret) ∧
      Keeps s' t (a.add x (t + (s.timer x).interval.toNat)) ∧
      ∀ y, (s'.timer y).interval = (s.timer y).interval := by
  have word := h.inv.word x
  have low : (t % clockSpan + toClock (s.timer x).interval) % clockSpan =
      (t + (s.timer x).interval.toNat) % clockSpan := by
    rw [Keeps.toClock_toNat positive.le word, Nat.mod_add_mod]
  obtain ⟨s', ret, start, keeps, timer⟩ :=
    h.startNoLock idle positive.le low (by omega) (by omega)
  exact ⟨s', ret, start, keeps, fun y => by rw [timer, Timers.armed_interval]⟩

theorem Inv.start (h : s.Inv) (readable : s.Readable t) (x : Nat) :
    ∃ timers' ret, s.timers.ehTimerStart x (t % clockSpan) = some (timers', ret) ∧
      Keeps timers' t (s.follow t (.start x)) ∧
      ∀ y, (timers'.timer y).interval = (s.timers.timer y).interval := by
  have positive := h.positive x
  have read := h.readClock readable
  rcases Timers.ehTimerStart_cases s.timers x (t % clockSpan) with
    ⟨negative, -⟩ | ⟨-, busy, run⟩ | ⟨-, idle, run⟩
  · omega
  · have mem : x ∈ s.agenda.keys := by
      rw [← h.keeps.nodes]
      exact (h.keeps.inv.wf.running x).mp busy
    rw [follow, if_pos mem]
    exact ⟨_, _, run, read, fun _ => rfl⟩
  · have notMem : x ∉ s.agenda.keys := by
      rw [← h.keeps.nodes, ← h.keeps.inv.wf.running x, idle]
      decide
    rw [follow, if_neg notMem, run]
    exact arm read idle positive

theorem Inv.stop (h : s.Inv) (x : Nat) :
    ∃ timers' ret, s.timers.ehTimerStop x = some (timers', ret) ∧
      Keeps timers' s.clock (s.agenda.remove x) ∧
      ∀ y, (timers'.timer y).interval = (s.timers.timer y).interval := by
  rw [Timers.ehTimerStop]
  cases running : (s.timers.timer x).running with
  | true =>
    obtain ⟨timers', run, keeps, timer⟩ :=
      h.keeps.delNode ((h.keeps.inv.wf.running x).mp running)
    refine ⟨timers', retOk, by simp [run], keeps, fun y => ?_⟩
    rw [timer, Function.apply_update (fun _ => EhEventTimer.interval)]
    exact congrFun (Function.update_eq_self ..) y
  | false =>
    have notMem : x ∉ s.agenda.keys := by
      rw [← h.keeps.nodes, ← h.keeps.inv.wf.running x, running]
      decide
    rw [Agenda.remove_of_notMem notMem]
    exact ⟨_, _, rfl, h.keeps, fun _ => rfl⟩

theorem Inv.restart (h : s.Inv) (readable : s.Readable t) (x : Nat) :
    ∃ timers' ret, s.timers.ehTimerRestart x (t % clockSpan) = some (timers', ret) ∧
      Keeps timers' t (s.follow t (.restart x)) ∧
      ∀ y, (timers'.timer y).interval = (s.timers.timer y).interval := by
  have positive := h.positive x
  have read := h.readClock readable
  rw [Timers.ehTimerRestart, if_pos positive.le, follow]
  dsimp only
  change ∃ timers' ret, (if (s.timers.timer x).running = true then _ else _) = _ ∧ _
  cases running : (s.timers.timer x).running with
  | true =>
    obtain ⟨s₁, run, keeps, timer⟩ := read.delNode ((read.inv.wf.running x).mp running)
    have interval : ∀ y, (s₁.timer y).interval = (s.timers.timer y).interval := fun y => by
      rw [timer, Function.apply_update (fun _ => EhEventTimer.interval)]
      exact congrFun (Function.update_eq_self ..) y
    obtain ⟨timers', ret, start, keeps', same⟩ := arm keeps (x := x) (by simp [timer])
      (by rwa [interval])
    rw [interval] at keeps'
    refine ⟨timers', ret, ?_, keeps', fun y => (same y).trans (interval y)⟩
    rw [if_pos rfl]
    exact (congrArg (Option.bind · _) run).trans start
  | false =>
    have notMem : x ∉ s.agenda.keys := by
      rw [← h.keeps.nodes, ← h.keeps.inv.wf.running x, running]
      decide
    rw [Agenda.remove_of_notMem notMem]
    exact arm read running positive

theorem Inv.check (h : s.Inv) (readable : s.Readable t) {fuel : Nat}
    (enough : (s.agenda.due t).length ≤ fuel) :
    ∃ timers', s.timers.ehTimerCheck fuel (t % clockSpan) =
        .ok (timers', (s.agenda.due t).map Entry.key) ∧
      Keeps timers' t (s.follow t (.check fuel)) ∧
      (s.follow t (.check fuel)).due t = [] ∧
      (∀ y ∉ (s.agenda.due t).map Entry.key, timers'.timer y = s.timers.timer y) ∧
      ∀ e ∈ s.agenda.due t,
        timers'.timer e.key = (s.timers.timer e.key).fired t e.expiry := by
  rw [Timers.ehTimerCheck_eq h.keeps.inv.wf]
  exact (h.readClock readable).drain h.positive enough

theorem Inv.step (h : s.Inv) {op : Nat × Op} (step : Step clocksPerSec s op s') : s'.Inv := by
  obtain ⟨t, op⟩ := op
  obtain ⟨timers', clock', agenda'⟩ := s'
  obtain ⟨⟨readable, legal⟩, run, clock, agenda⟩ := step
  dsimp only at readable legal run clock agenda
  subst clock agenda
  cases op with
  | start x =>
    obtain ⟨timers, ret, call, keeps, interval⟩ := h.start (readable rfl) x
    rw [exec, call] at run
    cases run
    exact ⟨keeps, fun y => interval y ▸ h.positive y⟩
  | stop x =>
    obtain ⟨timers, ret, call, keeps, interval⟩ := h.stop x
    rw [exec, call] at run
    cases run
    exact ⟨keeps, fun y => interval y ▸ h.positive y⟩
  | restart x =>
    obtain ⟨timers, ret, call, keeps, interval⟩ := h.restart (readable rfl) x
    rw [exec, call] at run
    cases run
    exact ⟨keeps, fun y => interval y ▸ h.positive y⟩
  | check fuel =>
    obtain ⟨timers, call, keeps, -, other, fired⟩ :=
      h.check (readable rfl) (le_max_right fuel (s.agenda.due t).length)
    have interval : ∀ y, (timers.timer y).interval = (s.timers.timer y).interval := fun y => by
      by_cases mem : y ∈ (s.agenda.due t).map Entry.key
      · obtain ⟨e, inDue, rfl⟩ := List.mem_map.mp mem
        rw [fired e inDue, Keeps.fired_interval]
      · rw [other y mem]
    rw [exec, Timers.ehTimerCheck_eq h.keeps.inv.wf] at run
    rw [Timers.ehTimerCheck_eq h.keeps.inv.wf] at call
    cases result : Timers.drain fuel (s.timers.readClock (t % clockSpan)) with
    | error e =>
      rw [result] at run
      cases run
    | ok pair =>
      obtain ⟨s₁, notified⟩ := pair
      rw [result] at run
      cases run
      cases (Timers.drain_mono result (le_max_left ..)).symm.trans call
      exact ⟨keeps, fun y => interval y ▸ h.positive y⟩
  | firstRemaining =>
    have same : timers' = s.timers.readClock (t % clockSpan) :=
      Timers.firstRemaining_eq run
    subst same
    exact ⟨h.readClock (readable rfl), h.positive⟩
  | configInterval x interval =>
    obtain ⟨positive, word⟩ := legal x interval rfl
    have legal : (Op.configInterval x interval).Legal s.timers := ⟨word, fun _ => positive.le⟩
    have inv := h.keeps.inv.step legal run
    cases run
    have expire : ∀ y, ((s.timers.ehTimerConfigInterval x interval).timer y).expire =
        (s.timers.timer y).expire := fun y => by
      rw [Timers.ehTimerConfigInterval, Timers.setTimer,
        Function.apply_update (fun _ => EhEventTimer.expire)]
      exact congrFun (Function.update_eq_self x fun y => (s.timers.timer y).expire) y
    refine ⟨⟨inv, h.keeps.now, h.keeps.nodes, fun e mem => ?_, h.keeps.window⟩, fun y => ?_⟩
    · rw [expire]
      exact h.keeps.expire e mem
    · by_cases eq : y = x
      · simp [Timers.ehTimerConfigInterval, Timers.setTimer, eq, positive]
      · simp [Timers.ehTimerConfigInterval, Timers.setTimer, eq, h.positive y]
  | setAttr x attr =>
    have legal : (Op.setAttr x attr).Legal s.timers := trivial
    have inv := h.keeps.inv.step legal run
    cases run
    have same : ∀ y, ((s.timers.ehTimerSetAttr x attr).timer y).expire =
        (s.timers.timer y).expire ∧ ((s.timers.ehTimerSetAttr x attr).timer y).interval =
        (s.timers.timer y).interval := fun y => by
      by_cases eq : y = x <;> simp [Timers.ehTimerSetAttr, Timers.setTimer, eq]
    refine ⟨⟨inv, h.keeps.now, h.keeps.nodes, fun e mem => ?_, h.keeps.window⟩, fun y => ?_⟩
    · rw [(same e.key).1]
      exact h.keeps.expire e mem
    · rw [(same y).2]
      exact h.positive y

theorem Inv.initial {timer : Nat → EhEventTimer}
    (intervals : ∀ x, 0 < (timer x).interval ∧ (timer x).interval < 9223372036854775808) :
    (initial timer).Inv :=
  ⟨⟨.initial fun x => (intervals x).2, rfl, rfl, by simp [System.initial, Agenda.empty],
    by simp [System.initial, Agenda.empty]⟩, fun x => (intervals x).1⟩

theorem firstTimerMaxTime_nonneg (clocks : 60 * clocksPerSec < 9223372036854775808) :
    0 ≤ firstTimerMaxTime clocksPerSec := by
  have clock : ehMsecToClock clocksPerSec (1000 * 60) < 9223372036854775808 := by
    have small : ∀ c < 9223372036854775808,
        (if c ≠ 0 then c else if 1000 * 60 ≠ 0 then 1 else 0) < 9223372036854775808 := by
      intro c lt
      split
      · exact lt
      · decide
    refine small _ ?_
    change (60 * clocksPerSec % 18446744073709551616 +
      0 * clocksPerSec % 18446744073709551616 / 1000) % 18446744073709551616 < _
    rw [Nat.zero_mul, Nat.zero_mod, Nat.zero_div, Nat.add_zero, Nat.mod_mod,
      Nat.mod_eq_of_lt (clocks.trans (by decide))]
    exact clocks
  rw [firstTimerMaxTime, bmod_exact (by omega) (by omega)]
  omega

theorem Inv.sorted (h : s.Inv) :
    s.timers.nodes.Pairwise fun x y => s.timers.remaining x ≤ s.timers.remaining y := by
  rw [h.keeps.nodes, Agenda.keys, List.pairwise_map]
  refine s.agenda.sorted.imp_of_mem fun inA inB earlier => ?_
  have := earlier.le
  rw [h.keeps.remaining inA, h.keeps.remaining inB]
  omega

theorem Inv.duePrefix (h : s.Inv) (readable : s.Readable t) :
    (s.timers.readClock (t % clockSpan)).DuePrefix := by
  have read := h.readClock readable
  rw [Timers.DuePrefix, read.nodes, Agenda.keys, List.pairwise_map]
  refine s.agenda.sorted.imp_of_mem fun inA inB earlier => ?_
  have := earlier.le
  rw [read.remaining inA, read.remaining inB]
  omega

theorem Inv.first_remaining (h : s.Inv) (clocks : 60 * clocksPerSec < 9223372036854775808)
    (readable : s.Readable t) : ∃ timers' r,
    s.timers.ehTimerGetFirstRemainingTime clocksPerSec (t % clockSpan) = some (timers', r) ∧
    (s.agenda.entries = [] → r = firstTimerMaxTime clocksPerSec) ∧
    ∀ e ∈ s.agenda.entries, (∀ b ∈ s.agenda.entries, e.expiry ≤ b.expiry) →
      r = max 0 (min (e.expiry - t : Int) (firstTimerMaxTime clocksPerSec)) := by
  have read := h.readClock readable
  have limit := firstTimerMaxTime_nonneg clocks
  have nodes : s.timers.nodes = s.agenda.entries.map Entry.key := h.keeps.nodes
  have sorted := s.agenda.sorted
  rw [Timers.ehTimerGetFirstRemainingTime]
  dsimp only
  cases front : s.agenda.entries with
  | nil =>
    have empty : s.timers.timerTreeRoot.isEmpty = true :=
      (Root.isEmpty_iff _).mpr (nodes.trans (by rw [front, List.map_nil]))
    rw [if_pos empty]
    exact ⟨_, _, rfl, fun _ => rfl, by simp⟩
  | cons e rest =>
    have notEmpty : ¬s.timers.timerTreeRoot.isEmpty = true := fun empty => by
      have := ((Root.isEmpty_iff _).mp empty).symm.trans nodes
      simp [front] at this
    have first : s.timers.timerTreeRoot.leftmost = some e.key := by
      rw [Timers.leftmost_eq h.keeps.inv.wf, nodes, front]
      rfl
    have left : Timers.remaining ⟨s.timers.timerTreeRoot, t % clockSpan, s.timers.timer⟩ e.key =
        e.expiry - t := read.remaining (by simp [front])
    rw [if_neg notEmpty, first, Option.map_some, left]
    refine ⟨_, _, rfl, by simp, fun b mem least => ?_⟩
    have same : b.expiry = e.expiry := by
      refine le_antisymm (least e (by simp)) ?_
      rw [front] at sorted
      rcases List.mem_cons.mp mem with rfl | mem
      · exact le_rfl
      · exact ((List.pairwise_cons.mp sorted).1 b mem).le
    rw [same]
    omega

theorem Inv.sound (h : s.Inv) (clocks : 60 * clocksPerSec < 9223372036854775808) :
    Sound clocksPerSec s where
  running x := by
    rw [h.keeps.inv.wf.running x, h.keeps.nodes]
    exact List.mem_map
  order := h.keeps.nodes
  earlier := s.agenda.sorted
  nodup := h.keeps.inv.wf.nodup
  remaining e mem := h.keeps.remaining mem
  sorted := h.sorted
  due_first t readable := h.duePrefix readable
  leftmost_none := by
    rw [Timers.leftmost_eq h.keeps.inv.wf, List.head?_eq_none_iff]
  leftmost x first := by
    rw [Timers.leftmost_eq h.keeps.inv.wf] at first
    obtain ⟨rest, front⟩ := List.head?_eq_some_iff.mp first
    have sorted := h.sorted
    rw [front] at sorted ⊢
    refine ⟨by simp, fun y mem => ?_⟩
    rcases List.mem_cons.mp mem with rfl | mem
    · exact le_rfl
    · exact (List.pairwise_cons.mp sorted).1 y mem
  first_remaining t readable := h.first_remaining clocks readable
  check t readable fuel enough := by
    have atMost : (s.agenda.due t).length ≤ fuel := by
      rw [h.keeps.nodes, Agenda.keys, List.length_map] at enough
      exact (List.length_filter_le ..).trans enough
    obtain ⟨timers', run, keeps, none, other, fired⟩ := h.check readable atMost
    refine ⟨timers', run, fun x ahead => other x ?_, fun e mem due => ?_, fun x runs => ?_⟩
    · rintro mem
      obtain ⟨e, mem, eq⟩ := List.mem_map.mp mem
      obtain ⟨mem, due⟩ := Agenda.mem_due.mp mem
      exact absurd (ahead e mem eq) (by omega)
    · exact fired e (Agenda.mem_due.mpr ⟨mem, due⟩)
    · obtain ⟨e, mem, rfl⟩ := keeps.entry_of_mem ((keeps.inv.wf.running x).mp runs)
      rw [keeps.remaining mem]
      have notDue : ¬e.expiry ≤ t := fun due =>
        List.not_mem_nil (none ▸ Agenda.mem_due.mpr ⟨mem, due⟩)
      omega

end System

/-- The timers over whole runs with a punctual clock. -/
theorem ehTimer_keeps_schedule {clocksPerSec : Nat} {timer : Nat → EhEventTimer}
    {ops : List (Nat × Op)} {s : System} (clocks : 60 * clocksPerSec < 9223372036854775808)
    (intervals : ∀ x, 0 < (timer x).interval ∧ (timer x).interval < 9223372036854775808)
    (reach : System.Reach clocksPerSec timer ops s) : s.Sound clocksPerSec := by
  have inv : s.Inv := Run.invariant (I := System.Inv) (fun h step => h.step step) reach
    (System.Inv.initial intervals)
  exact inv.sound clocks

def threeTimers (x : Nat) : EhEventTimer :=
  if x = 2 then ⟨0, 30, 0, false⟩ else ⟨0, 10, attrAutoCirculation, false⟩

/-- They are started near the end of the 64-bit clock and checked after the wrap. -/
def wrapping : List (Nat × Op) :=
  [(18446744073709551610, .start 2), (18446744073709551610, .start 0),
    (18446744073709551610, .start 1), (18446744073709551625, .check 3)]

def System.next (s : System) (op : Nat × Op) : Option System :=
  if s.clock ≤ op.1 ∧ (∀ e ∈ s.agenda.entries, op.1 < e.expiry + 9223372036854775808) ∧
      readsClock op.2 = true then
    match exec 1000000 s.timers (op.1 % clockSpan) op.2 with
    | .ok timers => some ⟨timers, op.1, s.follow op.1 op.2⟩
    | .error _ => none
  else none

theorem System.next_step {s t : System} {op : Nat × Op} (next : s.next op = some t) :
    Step 1000000 s op t := by
  rw [System.next] at next
  split at next
  · next legal =>
    obtain ⟨back, overdue, reads⟩ := legal
    split at next
    · next timers run =>
      cases next
      refine ⟨⟨fun _ => ⟨back, overdue⟩, fun x interval eq => ?_⟩, run, by rw [if_pos reads], rfl⟩
      rw [eq] at reads
      cases reads
    · cases next
  · cases next

theorem wrapping_runs : (wrapping.foldlM System.next (.initial threeTimers)).isSome = true := by
  decide +kernel

/-- Two of them are due and fire in the order of their start; the third one is not. -/
theorem ehTimer_keeps_schedule_wrap : ∃ s, System.Reach 1000000 threeTimers wrapping s ∧
    s.timers.nodes = [0, 1, 2] ∧ (s.timers.timer 0).expire = 14 ∧ (s.timers.timer 2).expire = 24 ∧
    s.agenda.entries.map Entry.expiry =
      [18446744073709551630, 18446744073709551630, 18446744073709551640] ∧ s.Sound 1000000 := by
  have reach : System.Reach 1000000 threeTimers wrapping
      ((wrapping.foldlM System.next (.initial threeTimers)).get wrapping_runs) :=
    (Run.of_foldlM_some (Option.some_get wrapping_runs).symm).imp System.next_step
  exact ⟨_, reach, by decide +kernel, by decide +kernel, by decide +kernel, by decide +kernel,
    ehTimer_keeps_schedule (by decide) (fun x => by unfold threeTimers; split <;> decide) reach⟩

end EventHub.Timer
