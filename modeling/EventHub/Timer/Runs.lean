import EventHub.Timer.Loop

/-! Runs of the timer functions, with any readings of the clock. -/

namespace EventHub.Timer
open RbTree Library

/-- The calls; `fuel` bounds the iterations of the loop in a check. -/
inductive Op
  | start (x : Nat)
  | stop (x : Nat)
  | restart (x : Nat)
  | check (fuel : Nat)
  | firstRemaining
  | configInterval (x : Nat) (interval : Int)
  | setAttr (x attr : Nat)
deriving DecidableEq

def Op.timer : Op → Option Nat
  | .start x | .stop x | .restart x | .configInterval x _ | .setAttr x _ => some x
  | .check _ | .firstRemaining => none

def called (result : Option (Timers × Int)) : Except Stop Timers :=
  match result with
  | none => .error .nullPointer
  | some (s, _) => .ok s

theorem called_eq_ok {result : Option (Timers × Int)} {s : Timers} (h : called result = .ok s) :
    ∃ ret, result = some (s, ret) := by
  cases result with
  | none => cases h
  | some pair =>
    cases h
    exact ⟨pair.2, rfl⟩

/-- A call that reads the clock, if it does, as `now`. -/
def exec (clocksPerSec : Nat) (s : Timers) (now : Nat) : Op → Except Stop Timers
  | .start x => called (s.ehTimerStart x now)
  | .stop x => called (s.ehTimerStop x)
  | .restart x => called (s.ehTimerRestart x now)
  | .check fuel => (s.ehTimerCheck fuel now).map Prod.fst
  | .firstRemaining => called (s.ehTimerGetFirstRemainingTime clocksPerSec now)
  | .configInterval x interval => .ok (s.ehTimerConfigInterval x interval)
  | .setAttr x attr => .ok (s.ehTimerSetAttr x attr)

/-- An interval is an `eh_sclock_t`; one that a running timer is given is such as the
start functions let through. -/
def Op.Legal (s : Timers) : Op → Prop
  | .configInterval x interval =>
    interval < 9223372036854775808 ∧ ((s.timer x).running = true → 0 ≤ interval)
  | _ => True

/-- After `eh_timer_interior_init`, no timer runs. -/
def Timers.initial (timer : Nat → EhEventTimer) : Timers :=
  ⟨Root.init, 0, fun x => { timer x with running := false }⟩

/-- The states after calls `ops`, each with its reading of the clock. -/
def Reach (clocksPerSec : Nat) (timer : Nat → EhEventTimer) (ops : List (Nat × Op))
    (s : Timers) : Prop :=
  Run (fun s op t => op.2.Legal s ∧ exec clocksPerSec s op.1 op.2 = .ok t)
    (Timers.initial timer) ops s

namespace Timers
variable {s s' : Timers} {x y base now : Nat}

def readClock (s : Timers) (now : Nat) : Timers := { s with timerNow := now }

theorem Wf.readClock (wf : s.Wf) (now : Nat) : (s.readClock now).Wf :=
  ⟨wf.tree, wf.nodup, wf.running⟩

theorem Wf.initial (timer : Nat → EhEventTimer) : (initial timer).Wf :=
  ⟨Root.init_wf, .nil, fun x => by simp [Timers.initial, nodes, Root.nodes_init]⟩

theorem Wf.setTimer (wf : s.Wf) {timer : EhEventTimer}
    (same : timer.running = (s.timer x).running) : (s.setTimer x timer).Wf := by
  refine ⟨wf.tree, wf.nodup, fun y => (Eq.to_iff ?_).trans (wf.running y)⟩
  rw [Timers.setTimer, Function.apply_update (fun _ => EhEventTimer.running), same,
    Function.update_eq_self]

theorem ehTimerCheck_eq (wf : s.Wf) (fuel now : Nat) :
    s.ehTimerCheck fuel now = drain fuel (s.readClock now) := by
  rw [ehTimerCheck]
  dsimp only
  split
  · rename_i empty
    have none : (s.readClock now).dueFirst = none := by
      refine (dueFirst_eq_none (wf.readClock now)).mpr ?_
      rw [show (s.readClock now).nodes = [] from (Root.isEmpty_iff _).mp empty]
      simp
    cases fuel <;> rw [drain, none] <;> rfl
  · rfl

theorem ehTimerStart_cases (s : Timers) (x now : Nat) :
    ((s.timer x).interval < 0 ∧ s.ehTimerStart x now = some (s, retInvalidParam)) ∨
    (0 ≤ (s.timer x).interval ∧ (s.timer x).running = true ∧
      s.ehTimerStart x now = some (s.readClock now, retBusy)) ∨
    0 ≤ (s.timer x).interval ∧ (s.timer x).running = false ∧
      s.ehTimerStart x now = (s.readClock now).startNoLock now x := by
  by_cases nonneg : 0 ≤ (s.timer x).interval
  · rw [ehTimerStart, if_pos nonneg]
    cases running : (s.timer x).running with
    | true => exact .inr (.inl ⟨nonneg, rfl, if_pos running⟩)
    | false => exact .inr (.inr ⟨nonneg, rfl, rfl⟩)
  · rw [ehTimerStart, if_neg nonneg]
    exact .inl ⟨by omega, rfl⟩

theorem Wf.start (wf : s.Wf) {ret : Int} (run : s.ehTimerStart x now = some (s', ret)) :
    s'.Wf ∧ s'.timer = if 0 ≤ (s.timer x).interval ∧ (s.timer x).running = false
      then s.armed x ((now + toClock (s.timer x).interval) % clockSpan) else s.timer := by
  rcases ehTimerStart_cases s x now with ⟨negative, same⟩ | ⟨-, busy, same⟩ | ⟨nonneg, idle, start⟩
  · cases same.symm.trans run
    exact ⟨wf, (if_neg fun both => absurd both.1 (by omega)).symm⟩
  · cases same.symm.trans run
    refine ⟨wf.readClock now, (if_neg fun both => ?_).symm⟩
    rw [busy] at both
    cases both.2
  · obtain ⟨s₁, before, after, run₁, wf₁, -, timer, -⟩ :=
      startNoLock_spec (wf.readClock now) (x := x) idle now
    cases start.symm.trans run |>.symm.trans run₁
    exact ⟨wf₁, timer.trans (if_pos ⟨nonneg, idle⟩).symm⟩

theorem Wf.stop (wf : s.Wf) {ret : Int} (run : s.ehTimerStop x = some (s', ret)) :
    s'.Wf ∧ s'.timer = Function.update s.timer x { s.timer x with running := false } ∧
      s'.nodes = s.nodes.filter (· ≠ x) := by
  rw [ehTimerStop] at run
  cases running : (s.timer x).running with
  | true =>
    obtain ⟨s₁, before, after, del, wf₁, -, timer, nodes, nodes'⟩ :=
      delNode_spec wf ((wf.running x).mp running)
    rw [if_pos running, del] at run
    cases run
    have nodup := wf.nodup
    rw [nodes] at nodup
    have absent := (List.nodup_cons.mp (List.nodup_middle.mp nodup)).1
    have left : before.filter (· ≠ x) = before := List.filter_eq_self.mpr fun y mem => by
      simpa using fun eq : y = x => absent (eq ▸ List.mem_append_left _ mem)
    have right : after.filter (· ≠ x) = after := List.filter_eq_self.mpr fun y mem => by
      simpa using fun eq : y = x => absent (eq ▸ List.mem_append_right _ mem)
    refine ⟨wf₁, timer, ?_⟩
    rw [nodes', nodes, List.filter_append, List.filter_cons_of_neg (by simp), left, right]
  | false =>
    rw [if_neg (by simp [running])] at run
    cases run
    refine ⟨wf, ?_, ?_⟩
    · rw [← running]
      exact (Function.update_eq_self x s.timer).symm
    · refine (List.filter_eq_self.mpr fun y mem => ?_).symm
      have out : y ≠ x := fun eq => by
        rw [(wf.running x).mpr (eq ▸ mem)] at running
        cases running
      simpa using out

theorem Wf.restart (wf : s.Wf) {ret : Int} (run : s.ehTimerRestart x now = some (s', ret))
    (ne : y ≠ x) : s'.Wf ∧ s'.timer y = s.timer y := by
  rw [ehTimerRestart] at run
  dsimp only at run
  split at run
  · have read := wf.readClock now
    split at run
    · next running =>
      obtain ⟨s₁, -, -, del, wf₁, -, timer, -⟩ := delNode_spec read ((read.running x).mp running)
      have again : s₁.startNoLock now x = some (s', ret) := by
        rw [show ({ s with timerNow := now } : Timers) = s.readClock now from rfl, del] at run
        exact run
      obtain ⟨s₂, before, after, run₂, wf₂, -, timer₂, -⟩ :=
        startNoLock_spec wf₁ (x := x) (by simp [timer]) now
      cases again.symm.trans run₂
      refine ⟨wf₂, ?_⟩
      rw [timer₂, armed, Function.update_of_ne ne, timer, Function.update_of_ne ne]
      rfl
    · next idle =>
      obtain ⟨s₂, before, after, run₂, wf₂, -, timer₂, -⟩ :=
        startNoLock_spec read (x := x) (Bool.not_eq_true _ ▸ idle) now
      cases run.symm.trans run₂
      refine ⟨wf₂, ?_⟩
      rw [timer₂, armed, Function.update_of_ne ne]
      rfl
  · cases run
    exact ⟨wf, rfl⟩

structure Inv (s : Timers) : Prop where
  wf : s.Wf
  word : ∀ x, (s.timer x).interval < 9223372036854775808
  nonneg : ∀ x ∈ s.nodes, 0 ≤ (s.timer x).interval

theorem Inv.admitted (h : s.Inv) : s.Admitted := fun x mem => ⟨h.nonneg x mem, h.word x⟩

theorem Inv.readClock (h : s.Inv) (now : Nat) : (s.readClock now).Inv :=
  ⟨h.wf.readClock now, h.word, h.nonneg⟩

theorem armed_interval (s : Timers) (x expire y : Nat) :
    (s.armed x expire y).interval = (s.timer y).interval := by
  rw [armed, Function.apply_update (fun _ => EhEventTimer.interval)]
  exact congrFun (Function.update_eq_self x fun y => (s.timer y).interval) y

theorem Inv.startNoLock (h : s.Inv) (idle : (s.timer x).running = false)
    (nonneg : 0 ≤ (s.timer x).interval) (base : Nat) :
    ∃ s' ret, s.startNoLock base x = some (s', ret) ∧ s'.Inv := by
  obtain ⟨s', before, after, run, wf, -, timer, nodes, nodes', -, -⟩ :=
    startNoLock_spec h.wf idle base
  refine ⟨s', _, run, wf, fun y => ?_, fun y mem => ?_⟩
  · rw [timer, armed_interval]
    exact h.word y
  · rw [timer, armed_interval]
    by_cases eq : y = x
    · rwa [eq]
    · refine h.nonneg y ?_
      rw [nodes]
      rw [nodes', List.mem_append, List.mem_cons] at mem
      rw [List.mem_append]
      exact mem.imp_right fun mem => mem.resolve_left eq

theorem Inv.delNode (h : s.Inv) (mem : x ∈ s.nodes) :
    ∃ s', s.delNode x = some s' ∧ s'.Inv ∧ (s'.timer x).running = false ∧
      (s'.timer x).interval = (s.timer x).interval := by
  obtain ⟨s', before, after, run, wf, -, timer, nodes, nodes'⟩ := delNode_spec h.wf mem
  have interval : ∀ y, (s'.timer y).interval = (s.timer y).interval := fun y => by
    rw [timer, Function.apply_update (fun _ => EhEventTimer.interval)]
    exact congrFun (Function.update_eq_self x fun y => (s.timer y).interval) y
  refine ⟨s', run, ⟨wf, fun y => ?_, fun y mem => ?_⟩, by simp [timer], interval x⟩
  · rw [interval]
    exact h.word y
  · rw [interval]
    refine h.nonneg y ?_
    rw [nodes', List.mem_append] at mem
    rw [nodes, List.mem_append, List.mem_cons]
    exact mem.imp_right .inr

theorem Inv.start (h : s.Inv) (x now : Nat) :
    ∃ s' ret, s.ehTimerStart x now = some (s', ret) ∧ s'.Inv := by
  rcases ehTimerStart_cases s x now with ⟨-, run⟩ | ⟨-, -, run⟩ | ⟨nonneg, idle, run⟩
  · exact ⟨s, _, run, h⟩
  · exact ⟨_, _, run, h.readClock now⟩
  · rw [run]
    exact (h.readClock now).startNoLock idle nonneg now

theorem Inv.stop (h : s.Inv) (x : Nat) :
    ∃ s' ret, s.ehTimerStop x = some (s', ret) ∧ s'.Inv := by
  cases running : (s.timer x).running with
  | true =>
    obtain ⟨s', run, inv, -⟩ := h.delNode ((h.wf.running x).mp running)
    exact ⟨s', retOk, by simp [ehTimerStop, running, run], inv⟩
  | false => exact ⟨s, retOk, by simp [ehTimerStop, running], h⟩

theorem Inv.restart (h : s.Inv) (x now : Nat) :
    ∃ s' ret, s.ehTimerRestart x now = some (s', ret) ∧ s'.Inv := by
  by_cases nonneg : 0 ≤ (s.timer x).interval
  · rw [ehTimerRestart, if_pos nonneg]
    dsimp only
    have h := h.readClock now
    split
    · rename_i running
      obtain ⟨s', run, inv, idle, interval⟩ := h.delNode ((h.wf.running x).mp running)
      rw [show ({ s with timerNow := now } : Timers) = s.readClock now from rfl, run]
      exact inv.startNoLock idle (interval ▸ nonneg) now
    · rename_i idle
      exact h.startNoLock (Bool.not_eq_true _ ▸ idle) nonneg now
  · exact ⟨s, _, if_neg nonneg, h⟩

theorem Inv.drain (h : s.Inv) {fuel : Nat} {notified : List Nat}
    (run : Timers.drain fuel s = .ok (s', notified)) : s'.Inv := by
  refine (drain_kept (I := Inv) ?_ h.wf h run).1
  intro s x rest s' _ h front _ _ it
  refine ⟨it.wf, fun y => ?_, fun y mem => (it.admitted front h.admitted y mem).1⟩
  rw [it.interval]
  exact h.word y

theorem firstRemaining_eq {clocksPerSec : Nat}
    (run : exec clocksPerSec s now .firstRemaining = .ok s') : s' = s.readClock now := by
  simp only [exec, ehTimerGetFirstRemainingTime] at run
  split at run
  · cases run
    rfl
  · cases first : s.timerTreeRoot.leftmost with
    | none =>
      rw [first] at run
      cases run
    | some x =>
      rw [first] at run
      cases run
      rfl

theorem Wf.exec (wf : s.Wf) {clocksPerSec : Nat} {op : Op} (ne : op.timer ≠ some y)
    (single : ∀ fuel, op ≠ .check fuel) (run : exec clocksPerSec s now op = .ok s') :
    s'.Wf ∧ s'.timer y = s.timer y := by
  cases op with
  | start x =>
    have other : y ≠ x := fun eq => ne (congrArg some eq.symm)
    obtain ⟨ret, run⟩ := called_eq_ok run
    obtain ⟨wf', timer⟩ := wf.start run
    refine ⟨wf', ?_⟩
    rw [timer]
    split
    · exact Function.update_of_ne other ..
    · rfl
  | stop x =>
    have other : y ≠ x := fun eq => ne (congrArg some eq.symm)
    obtain ⟨ret, run⟩ := called_eq_ok run
    obtain ⟨wf', timer, -⟩ := wf.stop run
    exact ⟨wf', by rw [timer, Function.update_of_ne other]⟩
  | restart x =>
    have other : y ≠ x := fun eq => ne (congrArg some eq.symm)
    obtain ⟨ret, run⟩ := called_eq_ok run
    exact wf.restart run other
  | check fuel => exact absurd rfl (single fuel)
  | firstRemaining =>
    rw [firstRemaining_eq run]
    exact ⟨wf.readClock now, rfl⟩
  | configInterval x interval =>
    have other : y ≠ x := fun eq => ne (congrArg some eq.symm)
    cases run
    exact ⟨wf.setTimer rfl, Function.update_of_ne other ..⟩
  | setAttr x attr =>
    have other : y ≠ x := fun eq => ne (congrArg some eq.symm)
    cases run
    exact ⟨wf.setTimer rfl, Function.update_of_ne other ..⟩

theorem Inv.step (h : s.Inv) {clocksPerSec : Nat} {op : Op} (legal : op.Legal s)
    (run : exec clocksPerSec s now op = .ok s') : s'.Inv := by
  cases op with
  | start x =>
    obtain ⟨t, ret, call, inv⟩ := h.start x now
    rw [exec, call] at run
    cases run
    exact inv
  | stop x =>
    obtain ⟨t, ret, call, inv⟩ := h.stop x
    rw [exec, call] at run
    cases run
    exact inv
  | restart x =>
    obtain ⟨t, ret, call, inv⟩ := h.restart x now
    rw [exec, call] at run
    cases run
    exact inv
  | check fuel =>
    rw [exec, ehTimerCheck_eq h.wf] at run
    cases result : Timers.drain fuel (s.readClock now) with
    | error e =>
      rw [result] at run
      cases run
    | ok pair =>
      rw [result] at run
      cases run
      exact (h.readClock now).drain result
  | firstRemaining =>
    rw [firstRemaining_eq run]
    exact h.readClock now
  | configInterval x interval =>
    cases run
    refine ⟨h.wf.setTimer rfl, fun y => ?_, fun y mem => ?_⟩
    · by_cases eq : y = x
      · simp [ehTimerConfigInterval, setTimer, eq, legal.1]
      · simp [ehTimerConfigInterval, setTimer, eq, h.word y]
    · by_cases eq : y = x
      · have running := (h.wf.running y).mpr mem
        subst eq
        simp [ehTimerConfigInterval, setTimer, legal.2 running]
      · simp [ehTimerConfigInterval, setTimer, eq, h.nonneg y mem]
  | setAttr x attr =>
    cases run
    have interval : ∀ y, ((s.ehTimerSetAttr x attr).timer y).interval =
        (s.timer y).interval := fun y => by
      rw [ehTimerSetAttr, setTimer, Function.apply_update (fun _ => EhEventTimer.interval)]
      exact congrFun (Function.update_eq_self x fun y => (s.timer y).interval) y
    exact ⟨h.wf.setTimer rfl, fun y => interval y ▸ h.word y,
      fun y mem => interval y ▸ h.nonneg y mem⟩

theorem Inv.initial {timer : Nat → EhEventTimer}
    (word : ∀ x, (timer x).interval < 9223372036854775808) : (Timers.initial timer).Inv :=
  ⟨.initial timer, word, by simp [Timers.initial, nodes, Root.nodes_init]⟩

end Timers

theorem Reach.inv {clocksPerSec : Nat} {timer : Nat → EhEventTimer} {ops : List (Nat × Op)}
    {s : Timers} (word : ∀ x, (timer x).interval < 9223372036854775808)
    (reach : Reach clocksPerSec timer ops s) : s.Inv :=
  Run.invariant (fun h step => h.step step.1 step.2) reach (.initial word)

/-- Exactly when a check, in any reachable state and at any time, runs its loop at most
once for each running timer and leaves only timers that are not yet due. -/
theorem ehTimerCheck_drains_iff {clocksPerSec : Nat} {timer : Nat → EhEventTimer}
    {ops : List (Nat × Op)} {s : Timers} (word : ∀ x, (timer x).interval < 9223372036854775808)
    (reach : Reach clocksPerSec timer ops s) (now : Nat) :
    (∃ s' notified, s.ehTimerCheck s.nodes.length now = .ok (s', notified) ∧
      ∀ x ∈ s'.nodes, 0 < s'.remaining x) ↔
    (s.readClock now).NoneStuck ∧ (s.readClock now).DuePrefix := by
  have inv := (reach.inv word).readClock now
  rw [Timers.ehTimerCheck_eq (reach.inv word).wf]
  exact Timers.drained_iff inv.wf inv.admitted

theorem ehTimerCheck_drains_iff_one :
    ∃ s, Reach 1000000 (fun _ => ⟨0, 10, attrAutoCirculation, false⟩) [(5, .start 0)] s ∧
      ((∃ s' notified, s.ehTimerCheck s.nodes.length 20 = .ok (s', notified) ∧
        ∀ x ∈ s'.nodes, 0 < s'.remaining x) ↔
      (s.readClock 20).NoneStuck ∧ (s.readClock 20).DuePrefix) := by
  obtain ⟨s, run⟩ : ∃ s, exec 1000000
      (Timers.initial fun _ => ⟨0, 10, attrAutoCirculation, false⟩) 5 (.start 0) = .ok s :=
    ⟨_, rfl⟩
  have reach : Reach 1000000 (fun _ => ⟨0, 10, attrAutoCirculation, false⟩) [(5, .start 0)] s :=
    .single ⟨trivial, run⟩
  exact ⟨s, reach, ehTimerCheck_drains_iff (fun _ => by decide) reach 20⟩

def stuck : Timers where
  timerTreeRoot := ⟨.node .black .nil 0 .nil, some 0⟩
  timerNow := 5
  timer := Function.update (fun _ => ⟨0, 0, attrAutoCirculation, false⟩) 0
    ⟨5, 0, attrAutoCirculation, true⟩

/-- The loop never ends with a timer that is armed again for the current time. -/
theorem ehTimerCheck_zero_interval_loops :
    Reach 1000000 (fun _ => ⟨0, 0, attrAutoCirculation, false⟩) [(5, .start 0)] stuck ∧
      ∀ fuel, stuck.ehTimerCheck fuel 5 = .error .outOfFuel := by
  have start : exec 1000000 (Timers.initial fun _ => ⟨0, 0, attrAutoCirculation, false⟩)
      5 (.start 0) = .ok stuck := by
    refine congrArg (fun timer => Except.ok (⟨⟨.node .black .nil 0 .nil, some 0⟩, 5, timer⟩ :
      Timers)) ?_
    exact Function.update_idem ..
  have again : stuck.checkBody 0 = some stuck := by
    refine congrArg (fun timer => some (⟨⟨.node .black .nil 0 .nil, some 0⟩, 5, timer⟩ :
      Timers)) ?_
    simp only [stuck, Timers.setTimer, Function.update_idem, Function.update_self]
    rfl
  have due : stuck.dueFirst = some 0 := by decide
  refine ⟨.single ⟨trivial, start⟩, fun fuel => ?_⟩
  change Timers.drain fuel stuck = _
  induction fuel with
  | zero => rw [Timers.drain, due]
  | succ fuel ih =>
    rw [Timers.drain, due]
    simp only [again, ih]
    rfl

end EventHub.Timer
