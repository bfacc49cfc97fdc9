import EventHub.Kernel.Wakeup

/-! How many switches are made between two calls of `eh_poll`. `dispatch_cnt` is counted up by
the task that is resumed, so that a switch to a task that has never run is not counted. -/

namespace EventHub.Kernel
open Library Event

variable {T O P W C A : Type} {sys : System T O W C A} {s s' : Eh T O P W C A}
  {k : After T P C} {p : Point T P C A}

/-- How far a task has come on its way through `eh_task_next`: not to the test of
`dispatch_cnt`, behind it, and behind the switch. -/
inductive Stage where
  | untested
  | tested
  | switched
deriving DecidableEq

def Point.stage : Point T P C A → Stage
  | .poll _ _ _ | .nextLoop _ | .nextCheck _ => .tested
  | .resumed _ => .switched
  | _ => .untested

/-- What `dispatch_cnt` says of the switches since the last poll. -/
def Stage.paced (n cnt since : Nat) : Stage → Prop
  | untested => since ≤ n ∧ (cnt % n ≠ 0 → since ≤ cnt % n)
  | tested => since ≤ cnt % n
  | switched => since ≤ cnt % n + 1

theorem Stage.paced_le {n cnt since : Nat} {stage : Stage} (pos : 0 < n)
    (h : stage.paced n cnt since) : since ≤ n := by
  have lt := Nat.mod_lt cnt pos
  cases stage with
  | untested => exact h.1
  | tested => exact Nat.le_trans h lt.le
  | switched => exact Nat.le_trans h lt

theorem Stage.paced_of_tested {n cnt since : Nat} (pos : 0 < n)
    (h : tested.paced n cnt since) : untested.paced n cnt since :=
  ⟨paced_le pos h, fun _ => h⟩

theorem Stage.paced_succ {n cnt since : Nat} (pos : 0 < n)
    (h : switched.paced n cnt since) : untested.paced n (cnt + 1) since := by
  refine ⟨paced_le pos h, fun ne => ?_⟩
  have lt := Nat.mod_lt cnt pos
  rw [← Nat.mod_add_mod] at ne ⊢
  by_cases last : cnt % n + 1 = n
  · rw [last, Nat.mod_self] at ne
    exact absurd rfl ne
  · rw [Nat.mod_eq_of_lt (by omega)]
    exact h

def Eh.stage (s : Eh T O P W C A) : Stage := (s.point s.self).stage

def Eh.Paced (sys : System T O W C A) (s : Eh T O P W C A) : Prop :=
  s.stage.paced sys.dispatchCntPerPoll s.sched.dispatchCnt s.sincePoll

/-- The counters are as they were and the same task runs. -/
structure Steady (s s' : Eh T O P W C A) : Prop where
  self : s'.self = s.self
  dispatchCnt : s'.sched.dispatchCnt = s.sched.dispatchCnt
  sincePoll : s'.sincePoll = s.sincePoll

theorem Eh.Paced.steady (h : s.Paced sys) (st : Steady s s') (stage : s'.stage = s.stage) :
    s'.Paced sys := by
  rw [Paced, stage, st.dispatchCnt, st.sincePoll]
  exact h

variable [DecidableEq T]

theorem Stirred.steady (st : Stirred s s') : Steady s s' :=
  ⟨st.currentTask, st.dispatchCnt, st.sincePoll⟩

theorem Stirred.stage (st : Stirred s s') : s'.stage = s.stage := by
  rw [Eh.stage, st.currentTask, st.point, Eh.stage]

theorem Eh.stage_setPoint (s : Eh T O P W C A) (p : Point T P C A) :
    (s.setPoint s.self p).stage = p.stage := by
  simp [Eh.stage, Eh.setPoint]

theorem Eh.Paced.setPoint (h : s.Paced sys) (st : Steady s s') (stage : p.stage = s.stage) :
    (s'.setPoint s.self p).Paced sys := by
  refine h.steady ⟨st.self, st.dispatchCnt, st.sincePoll⟩ ?_
  rw [← st.self, Eh.stage_setPoint, stage]

theorem Invariant.next_ready (h : Invariant sys s) {u : T} (more : s.sched.ringEmpty = false)
    (next : s.sched.links.next (.task s.self) = .task u) :
    s.alive u = true ∧ u ≠ s.self ∧ (s.point u).parked = true ∧ s.sched.state u = .ready := by
  obtain ⟨l, holds, -⟩ := h.sched.lists
  have ne : l .ready ≠ [] := fun empty => by
    rw [holds.ringEmpty.mpr empty] at more
    cases more
  obtain ⟨rest, ready⟩ := holds.ready_of_next ne next
  obtain ⟨live, neU, home⟩ := (holds.mem .ready u).mp (by simp [ready])
  exact ⟨live, neU, h.sched.parked live neU, home_ready.mp home⟩

/-- A switch to a task that has never run is made when `dispatch_cnt` is a multiple, or
comes early enough after a poll. -/
def Eh.FreshInTime (sys : System T O W C A) (s : Eh T O P W C A) : Prop :=
  ∀ k u, s.point s.self = .nextLoop k → s.sched.ringEmpty = false →
    s.sched.links.next (.task s.self) = .task u → s.point u = .fresh →
    s.sched.dispatchCnt % sys.dispatchCntPerPoll = 0 ∨
      s.sincePoll < s.sched.dispatchCnt % sys.dispatchCntPerPoll

theorem Eh.Paced.startPoll (s : Eh T O P W C A) (idle : Bool) (k : After T P C) :
    (s.startPoll idle k).Paced sys := by
  have stage : (s.startPoll idle k).stage = .tested := Eh.stage_setPoint _ _
  rw [Paced, stage]
  exact Nat.zero_le _

theorem Eh.Paced.nextStep (h : s.Paced sys) (at_ : s.point s.self = .next k) :
    (s.nextStep sys k).Paced sys := by
  rw [Eh.nextStep]
  split
  · exact .startPoll s false k
  · next ne =>
    rw [Paced, Eh.stage, at_] at h
    rw [Paced, Eh.stage_setPoint]
    exact h.2 ne

theorem Eh.Paced.dispatch (h : s.Paced sys) (inv : Invariant sys s)
    (pos : 0 < sys.dispatchCntPerPoll) (at_ : s.point s.self = .nextLoop k)
    (fresh : s.FreshInTime sys) (step : s.dispatch k = some s') : s'.Paced sys := by
  rw [Paced, Eh.stage, at_] at h
  have before : s.sincePoll ≤ s.sched.dispatchCnt % sys.dispatchCntPerPoll := h
  have lt := Nat.mod_lt s.sched.dispatchCnt pos
  rw [Eh.dispatch] at step
  split at step
  · cases step
    exact .startPoll s true k
  · next more =>
    split at step
    · next u next =>
      cases step
      rw [Bool.not_eq_true] at more
      obtain ⟨-, neU, parked, -⟩ := inv.next_ready more next
      simp only [Paced, Eh.stage, Eh.self, Eh.setPoint, Sched.switchTo_currentTask,
        Sched.switchTo_dispatchCnt, Function.update_of_ne neU]
      cases p : s.point u with
      | resumed j => exact Nat.succ_le_succ before
      | fresh =>
        -- the counter stays behind by this switch
        rcases fresh k u at_ more next p with zero | early
        · have none : s.sincePoll = 0 := by omega
          rw [none]
          exact ⟨pos, fun ne => absurd zero ne⟩
        · exact ⟨by omega, fun _ => early⟩
      | _ =>
        rw [p] at parked
        cases parked
    · cases step

theorem Eh.Paced.continueAt
    (h : Stage.untested.paced sys.dispatchCntPerPoll s.sched.dispatchCnt s.sincePoll)
    (step : s.continueAt k = some s') : s'.Paced sys := by
  cases k with
  | yield =>
    cases step
    rw [Paced, Eh.stage_setPoint]
    exact h
  | finished => cases step
  | wait w =>
    cases step
    rw [Paced, Eh.stage_setPoint]
    exact h

theorem Eh.Paced.idleCheck (h : s.Paced sys) (pos : 0 < sys.dispatchCntPerPoll)
    (at_ : s.point s.self = .nextCheck k) (step : s.idleCheck k = some s') :
    s'.Paced sys := by
  rw [Eh.idleCheck] at step
  split at step
  · rw [Paced, Eh.stage, at_] at h
    refine Eh.Paced.continueAt ?_ step
    exact Stage.paced_of_tested pos h
  · cases step
    apply h.setPoint ⟨rfl, rfl, rfl⟩
    rw [Eh.stage, at_]
    rfl

theorem Eh.Paced.resume (h : s.Paced sys) (pos : 0 < sys.dispatchCntPerPoll)
    (divides : sys.dispatchCntPerPoll ∣ 2 ^ 32) (at_ : s.point s.self = .resumed k)
    (step : s.resume k = some s') : s'.Paced sys := by
  rw [Eh.resume] at step
  rw [Paced, Eh.stage, at_] at h
  apply Eh.Paced.continueAt _ step
  have counted := Stage.paced_succ pos h
  rw [Stage.paced, Nat.mod_mod_of_dvd _ divides]
  exact counted

theorem Eh.Paced.autoDestruct (h : s.Paced sys) (st : Steady s s') (tested : s.stage = .tested)
    (pos : Node T) (idle : Bool) : (s'.autoDestruct pos idle k).Paced sys := by
  rw [Eh.autoDestruct, st.self]
  split
  · refine h.setPoint ⟨st.self, st.dispatchCnt, st.sincePoll⟩ ?_
    cases idle <;> exact tested.symm
  · exact h.setPoint st tested.symm

variable {w : Wait T P C}

theorem Eh.Paced.startWait (h : s.Paced sys) (untested : s.stage = .untested) (world : W) :
    ({ s with world := world }.startWait w).Paced sys := by
  rw [Eh.startWait]
  split
  · exact h.setPoint ⟨rfl, rfl, rfl⟩ untested.symm
  · split <;> exact h.setPoint ⟨rfl, rfl, rfl⟩ untested.symm

variable [DecidableEq O] [DecidableEq P]

theorem Eh.Paced.pollStep (h : s.Paced sys) (inv : Invariant sys s) {pp : PollPoint T}
    {idle : Bool} (at_ : s.point s.self = .poll pp idle k)
    (step : s.pollStep idle k pp = some s') : s'.Paced sys := by
  have tested : s.stage = .tested := by
    rw [Eh.stage, at_]
    rfl
  cases pp with
  | start =>
    rw [Eh.pollStep] at step
    split at step
    · cases step
      exact h.autoDestruct ⟨rfl, rfl, rfl⟩ tested _ idle
    · cases step
      apply h.setPoint ⟨rfl, rfl, rfl⟩
      cases idle <;> exact tested.symm
  | destroy pos n =>
    cases pos with
    | task u =>
      cases step
      exact h.setPoint (signal_stirred inv.event.owned _).steady tested.symm
    | _ => cases step
  | unlink pos n =>
    cases pos with
    | task u =>
      cases step
      have destroyed : Steady s (s.destroy u) := ⟨rfl, rfl, rfl⟩
      exact h.autoDestruct destroyed tested n idle
    | _ => cases step

theorem Eh.Paced.enter (h : s.Paced sys) (untested : s.stage = .untested) :
    (s.enter sys w).Paced sys := by
  rw [Eh.enter]
  split
  · split
    · exact h.setPoint ⟨rfl, rfl, rfl⟩ untested.symm
    · split <;> exact h.setPoint ⟨rfl, rfl, rfl⟩ untested.symm
  all_goals
    split
    · exact h.setPoint ⟨rfl, rfl, rfl⟩ untested.symm
    · exact h.startWait untested _
    · exact h.startWait untested s.world

theorem Eh.Paced.loopWait (h : s.Paced sys) (untested : s.stage = .untested) :
    (s.loopWait sys w).Paced sys := by
  have checked := (check_stirred sys s w).steady
  have at_ : (s.check sys w).2.self = s.self := checked.self
  rw [Eh.loopWait]
  split
  · next ret s' eq =>
    rw [eq] at checked at_
    rw [Eh.leaveWait, at_]
    refine h.setPoint ⟨checked.self, checked.dispatchCnt, checked.sincePoll⟩ ?_
    split <;> exact untested.symm
  · next s' eq =>
    rw [eq] at checked at_
    rw [Eh.park, at_]
    exact h.setPoint ⟨checked.self, checked.dispatchCnt, checked.sincePoll⟩ untested.symm

theorem Eh.Paced.afterWait (h : s.Paced sys) (inv : Invariant sys s)
    (untested : s.stage = .untested) (ret : Int) : (s.afterWait sys w ret).Paced sys := by
  rw [Eh.afterWait]
  split
  · split
    · exact h.setPoint ⟨rfl, rfl, rfl⟩ untested.symm
    · exact h.setPoint (signal_stirred inv.event.owned _).steady untested.symm
  · exact h.setPoint ⟨rfl, rfl, rfl⟩ untested.symm
  · exact h.setPoint ⟨rfl, rfl, rfl⟩ untested.symm

theorem Eh.Paced.actStep (h : s.Paced sys) (inv : Invariant sys s)
    (untested : s.stage = .untested) (a : A) : (s.actStep sys a).Paced sys := by
  rw [Eh.actStep]
  apply h.setPoint (perform_stirred sys inv.event.owned a).steady
  split <;> exact untested.symm

theorem Eh.Paced.go (h : s.Paced sys) (inv : Invariant sys s)
    (pos : 0 < sys.dispatchCntPerPoll) (divides : sys.dispatchCntPerPoll ∣ 2 ^ 32)
    (fresh : s.FreshInTime sys) (step : s.go sys = some s') : s'.Paced sys := by
  have untested : ∀ {p : Point T P C A}, s.point s.self = p → p.stage = .untested →
      s.stage = .untested := fun at_ stage => by rw [Eh.stage, at_, stage]
  rw [Eh.go] at step
  split at step
  · next at_ =>
    cases step
    exact h.setPoint ⟨rfl, rfl, rfl⟩ (untested at_ rfl).symm
  · cases step
  · next at_ =>
    cases step
    exact h.actStep inv (untested at_ rfl) _
  · next at_ =>
    cases step
    apply h.setPoint ⟨rfl, rfl, rfl⟩
    split <;> exact (untested at_ rfl).symm
  · next at_ =>
    cases step
    rw [Eh.linkReceptor]
    split <;> exact h.setPoint ⟨rfl, rfl, rfl⟩ (untested at_ rfl).symm
  · next at_ =>
    cases step
    exact h.loopWait (untested at_ rfl)
  · next at_ =>
    cases step
    exact h.setPoint ⟨rfl, rfl, rfl⟩ (untested at_ rfl).symm
  · next at_ =>
    cases step
    exact h.afterWait inv (untested at_ rfl) _
  · next at_ =>
    cases step
    exact h.setPoint ⟨rfl, rfl, rfl⟩ (untested at_ rfl).symm
  · next at_ =>
    cases step
    exact h.setPoint (signal_stirred inv.event.owned _).steady (untested at_ rfl).symm
  · next at_ =>
    cases step
    exact h.nextStep at_
  · next at_ => exact h.pollStep inv at_ step
  · next at_ => exact h.dispatch inv pos at_ fresh step
  · next at_ => exact h.idleCheck pos at_ step
  · next at_ => exact h.resume pos divides at_ step

theorem Eh.Paced.user (h : s.Paced sys) (inv : Invariant sys s)
    (at_ : s.point s.self = .user) {l : Label T O P C A} (step : s.user sys l = some s') :
    s'.Paced sys := by
  have untested : s.stage = .untested := by
    rw [Eh.stage, at_]
    rfl
  cases Eh.user_cases step with
  | wait => exact h.enter untested
  | @act a => exact h.actStep inv untested a
  | @create t system auto dead =>
    have ne : s.self ≠ t := fun eq => by
      rw [← eq, inv.sched.live] at dead
      cases dead
    refine h.steady ⟨?_, ?_, rfl⟩ ?_
    · simp [Eh.create, Eh.setPoint, Eh.self]
    · simp [Eh.create, Eh.setPoint]
    · simp [Eh.create, Eh.stage, Eh.setPoint, Eh.self, ne]
  | yield => exact h.setPoint ⟨rfl, rfl, rfl⟩ untested.symm
  | ret => exact h.setPoint ⟨rfl, rfl, rfl⟩ untested.symm
  | exitMain => exact h.setPoint ⟨rfl, rfl, rfl⟩ untested.symm
  | exit =>
    have owned : Owned { s with sched := s.sched.setState s.self .finish } :=
      ⟨inv.event.owned.receptor, inv.event.owned.epoll, inv.event.owned.single⟩
    have notified := (signal_stirred owned (.notify (.task s.self))).steady
    refine h.setPoint (p := .next .finished) ?_ untested.symm
    exact ⟨notified.self, notified.dispatchCnt, notified.sincePoll⟩
  | epollAdd =>
    refine h.steady ?_ ?_
    · rw [Eh.ehEpollAddEvent]
      split <;> exact ⟨rfl, rfl, rfl⟩
    · rw [Eh.ehEpollAddEvent]
      split <;> rfl
  | epollDel =>
    refine h.steady ?_ ?_
    · rw [Eh.ehEpollDelEvent]
      split <;> exact ⟨rfl, rfl, rfl⟩
    · rw [Eh.ehEpollDelEvent]
      split <;> rfl

theorem Eh.Paced.step (h : s.Paced sys) (inv : Invariant sys s)
    (pos : 0 < sys.dispatchCntPerPoll) (divides : sys.dispatchCntPerPoll ∣ 2 ^ 32)
    {l : Label T O P C A} (fresh : l = .go → s.FreshInTime sys)
    (step : s.step sys l = some s') : s'.Paced sys := by
  have quiet : ∀ {t : Eh T O P W C A}, Stirred s t → t.Paced sys := fun st =>
    h.steady st.steady st.stage
  have performed : ∀ {a : A}, (s.perform sys a).Paced sys :=
    quiet (perform_stirred sys inv.event.owned _)
  cases Eh.step_cases step with
  | go step => exact h.go inv pos divides (fresh rfl) step
  | user at_ step => exact h.user inv at_ step
  | signal g => exact quiet (signal_stirred inv.event.owned g)
  | wakeUp live => exact quiet (.of_wakeUp live)
  | expire t => exact quiet (expire_stirred inv.event.owned t)
  | interrupt => exact performed.steady ⟨rfl, rfl, rfl⟩ rfl
  | interruptGo => exact performed.steady ⟨rfl, rfl, rfl⟩ rfl

/-- In a run in which no switch to a task that has never run comes too late, at most
`EH_CONFIG_TASK_DISPATCH_CNT_PER_POLL` switches are made between two polls. -/
theorem ehTaskNext_polls (sys : System T O W C A) (divides : sys.dispatchCntPerPoll ∣ 2 ^ 32)
    (main : T) (world : W) (ls : List (Label T O P C A)) (s : Eh T O P W C A)
    (run : Run (fun s l t => (l = .go → s.FreshInTime sys) ∧ s.step sys l = some t)
      (Eh.init main world) ls s) :
    s.sincePoll ≤ sys.dispatchCntPerPoll := by
  have pos : 0 < sys.dispatchCntPerPoll := Nat.pos_of_dvd_of_pos divides (by decide)
  have kept := run.invariant (I := fun s => Invariant sys s ∧ s.Paced sys)
    (fun inv step => ⟨inv.1.step step.2, inv.2.step inv.1 pos divides step.1 step.2⟩)
    ⟨.init sys main world, pos.le, fun _ => Nat.zero_le _⟩
  exact Stage.paced_le pos kept.2

/-- The steps of `plain` before the first switch is counted. -/
def uncounted (s : Eh Nat Unit Unit Unit Unit Empty) (l : Label Nat Unit Unit Unit Empty) :
    Option (Eh Nat Unit Unit Unit Unit Empty) :=
  if s.sched.dispatchCnt = 0 then s.step plain l else none

def oneYield : List (Label Nat Unit Unit Unit Empty) :=
  callThen (.create 1 false false) 0 ++ callThen .yield 4

theorem oneYield_runs : (oneYield.foldlM uncounted (Eh.init 0 ())).isSome = true := rfl

theorem ehTaskNext_polls_one : ∃ s : Eh Nat Unit Unit Unit Unit Empty,
    s.self = 1 ∧ s.sincePoll ≤ plain.dispatchCntPerPoll := by
  have run := Run.of_foldlM_some (Option.some_get oneYield_runs).symm
  refine ⟨_, rfl, ehTaskNext_polls plain (by decide) 0 () oneYield _ (run.imp ?_)⟩
  intro s l t step
  rw [uncounted] at step
  split at step
  · next zero =>
    refine ⟨fun _ _ _ _ _ _ _ => .inl ?_, step⟩
    rw [zero]
    rfl
  · cases step

/-- Main yields once and waits. Then every task creates the next one and returns. -/
def successors : List (Label Nat Unit Unit Unit Empty) :=
  [callThen (.create 1 false false) 0, callThen .yield 4, callThen .yield 4,
    callThen (.wait ⟨.object (), ehTimeForever⟩) 5,
    callThen (.create 2 false true) 0, callThen .ret 4,
    callThen (.create 3 false true) 0, callThen .ret 4,
    callThen (.create 4 false true) 0, callThen .ret 4].flatten

theorem successors_runs : (Eh.runs plain 0 () successors).isSome = true := by decide +kernel

theorem successors_sincePoll :
    ((Eh.runs plain 0 () successors).get successors_runs).sincePoll = 5 := by
  decide +kernel

/-- Nobody polls as long as every task creates the next one and returns. -/
theorem ehTaskNext_starves_poll : ¬ ∀ s : Eh Nat Unit Unit Unit Unit Empty,
    s.Reachable plain 0 () → s.sincePoll ≤ plain.dispatchCntPerPoll := by
  intro bound
  have five := bound _ (Eh.reachable_get successors_runs)
  rw [successors_sincePoll] at five
  exact absurd five (by decide)

end EventHub.Kernel
