import EventHub.Kernel.Frames

/-! The flow of control: from which point to which a step takes the running task. -/

namespace EventHub.Kernel
open Library Event

variable {T O P W C A : Type}

/-- The point at which `eh_task_next` returns. -/
def After.returns : After T P C → Option (Point T P C A)
  | .yield => some .user
  | .finished => none
  | .wait w => some (.waitLoop w)

section Code
variable [DecidableEq T] [DecidableEq O] [DecidableEq P]

inductive Entry (s : Eh T O P W C A) (w : Wait T P C) : Point T P C A → Prop
  | met : (∀ u, w.joined = some u → s.sched.state u = .finish) →
      (∀ q n, w.caller ≠ .epoll q n) → Entry s w (.returned w ehRetOk)
  | timeout : w.timeout = 0 → (∀ q n, w.caller ≠ .epoll q n) →
      Entry s w (.returned w ehRetTimeout)
  | forever : w.timeout = ehTimeForever → (∀ q n, w.caller ≠ .epoll q n) →
      Entry s w (.waitAdd w)
  | timed : w.timeout ≠ ehTimeForever → w.timeout ≠ 0 →
      (∀ q n, w.caller = .epoll q n → 0 < w.timeout) → Entry s w (.waitTimer w)
  | epoll {q : P} {n : Nat} : w.caller = .epoll q n → w.timeout = ehTimeForever →
      Entry s w (.waitLoop w)
  | read {q : P} {n : Nat} (ret : Int) : w.caller = .epoll q n → Entry s w (.returned w ret)

inductive Flow (sys : System T O W C A) (s : Eh T O P W C A) :
    Point T P C A → Point T P C A → Prop
  | fresh : Flow sys s .fresh .user
  | acts {a : A} : Flow sys s (.acting a) .user
  | acting {a b : A} : Flow sys s (.acting a) (.acting b)
  | timer {w : Wait T P C} : (∀ q n, w.caller ≠ .epoll q n) →
      Flow sys s (.waitTimer w) (.waitAdd w)
  | epollTimer {w : Wait T P C} {q : P} {n : Nat} : w.caller = .epoll q n →
      Flow sys s (.waitTimer w) (.waitLoop w)
  | add {w : Wait T P C} : Flow sys s (.waitAdd w) (.waitLoop w)
  | leaves {w : Wait T P C} {ret : Int} : (s.check sys w).1 = some ret →
      Flow sys s (.waitLoop w) (if w.timed then .waitEnd w ret else .returned w ret)
  | parks {w : Wait T P C} : (s.check sys w).1 = none →
      Flow sys s (.waitLoop w) (.next (.wait w))
  | ends {w : Wait T P C} {ret : Int} : Flow sys s (.waitEnd w ret) (.returned w ret)
  | goesOn {w : Wait T P C} {ret : Int} : (∀ u, w.joined = some u → ret < 0) →
      Flow sys s (.returned w ret) .user
  | destroys {w : Wait T P C} {ret : Int} {u : T} : w.joined = some u → 0 ≤ ret →
      Flow sys s (.returned w ret) (.destroying u)
  | destroyed {u : T} : Flow sys s (.destroying u) .user
  | finishes : Flow sys s .finishing (.next .finished)
  | polls {k : After T P C} : Flow sys s (.next k) (.poll .start false k)
  | skips {k : After T P C} : Flow sys s (.next k) (.nextLoop k)
  | polling {pp qq : PollPoint T} {idle : Bool} {k : After T P C} :
      Flow sys s (.poll pp idle k) (.poll qq idle k)
  | polled {pp : PollPoint T} {idle : Bool} {k : After T P C} :
      Flow sys s (.poll pp idle k) (pollEnd idle k)
  | idles {k : After T P C} : Flow sys s (.nextLoop k) (.poll .start true k)
  | switches {k : After T P C} : Flow sys s (.nextLoop k) (.resumed k)
  | stays {k : After T P C} : Flow sys s (.nextCheck k) (.nextLoop k)
  | resumes {k : After T P C} {p : Point T P C A} : k.returns = some p →
      Flow sys s (.nextCheck k) p
  | returns {k : After T P C} {p : Point T P C A} : k.returns = some p →
      Flow sys s (.resumed k) p

inductive Calls (sys : System T O W C A) (s : Eh T O P W C A) :
    Label T O P C A → Point T P C A → Prop
  | wait {w : Wait T P C} {p : Point T P C A} : (∀ u, w.joined = some u → s.alive u = true) →
      Entry s w p → Calls sys s (.wait w) p
  | act {a : A} : Calls sys s (.act a) .user
  | acting {a b : A} : Calls sys s (.act a) (.acting b)
  | create {t : T} (system auto : Bool) : s.alive t = false →
      Calls sys s (.create t system auto) .user
  | yield : Calls sys s .yield (.next .yield)
  | ret : s.self ≠ s.sched.mainTask → Calls sys s .ret .finishing
  | exitMain : s.self = s.sched.mainTask → Calls sys s .exit (.next .yield)
  | exit : s.self ≠ s.sched.mainTask → Calls sys s .exit (.next .finished)
  | epollAdd {q : P} {e : EhEvent T O} : Calls sys s (.epollAdd q e) .user
  | epollDel {q : P} {e : EhEvent T O} : Calls sys s (.epollDel q e) .user

def Label.outside : Label T O P C A → Bool
  | .signal _ | .wakeUp _ | .expire _ | .interrupt _ | .interruptGo _ => true
  | _ => false

inductive Moved (sys : System T O W C A) (s : Eh T O P W C A) :
    Label T O P C A → Eh T O P W C A → Prop
  | go {s' : Eh T O P W C A} {p : Point T P C A} : Flow sys s (s.point s.self) p →
      s'.point = Function.update s.point s.self p → Moved sys s .go s'
  | calls {s' : Eh T O P W C A} {l : Label T O P C A} {p : Point T P C A} :
      s.point s.self = .user → Calls sys s l p → s'.point s.self = p → s'.self = s.self →
      Moved sys s l s'
  | outside {s' : Eh T O P W C A} {l : Label T O P C A} : l.outside = true →
      s'.point = s.point → s'.self = s.self → s'.alive = s.alive → Moved sys s l s'

end Code

variable [DecidableEq T] {sys : System T O W C A} {s s' : Eh T O P W C A}
  {l : Label T O P C A} {w : Wait T P C} {k : After T P C}

theorem continueAt_flow (step : s.continueAt k = some s') :
    ∃ p, k.returns = some p ∧ s'.point = Function.update s.point s.self p := by
  cases k with
  | finished => cases step
  | yield =>
    cases step
    exact ⟨.user, rfl, rfl⟩
  | wait w =>
    cases step
    exact ⟨.waitLoop w, rfl, rfl⟩

theorem autoDestruct_flow (s : Eh T O P W C A) (pos : Node T) (idle : Bool) (k : After T P C) :
    ∃ p : Point T P C A, ((∃ qq, p = .poll qq idle k) ∨ p = pollEnd idle k) ∧
      (s.autoDestruct pos idle k).point = Function.update s.point s.self p := by
  rw [Eh.autoDestruct]
  split
  · exact ⟨_, .inr rfl, rfl⟩
  · exact ⟨_, .inl ⟨_, rfl⟩, rfl⟩

variable [DecidableEq O] [DecidableEq P]

omit [DecidableEq O] [DecidableEq P] in
theorem startWait_flow {x : Eh T O P W C A} (w : Wait T P C) (self : x.self = s.self)
    (point : x.point = s.point) (plain : ∀ q n, w.caller ≠ .epoll q n) :
    ∃ p, Entry s w p ∧ (x.startWait w).point = Function.update s.point s.self p := by
  rw [Eh.startWait, self, ← point]
  split_ifs with forever zero
  · exact ⟨_, .forever forever plain, rfl⟩
  · exact ⟨_, .timeout zero plain, rfl⟩
  · exact ⟨_, .timed forever zero fun q n eq => absurd eq (plain q n), rfl⟩

theorem enter_flow (sys : System T O W C A) (s : Eh T O P W C A) (w : Wait T P C) :
    ∃ p, Entry s w p ∧ (s.enter sys w).point = Function.update s.point s.self p := by
  rw [Eh.enter]
  cases caller : w.caller with
  | epoll q n =>
    dsimp only
    split_ifs with forever later
    · exact ⟨_, .epoll caller forever, rfl⟩
    · exact ⟨_, .timed forever (by omega) fun q n _ => later, rfl⟩
    · exact ⟨_, .read _ caller, rfl⟩
    · exact ⟨_, .read _ caller, rfl⟩
  | join u =>
    have plain : ∀ q n, w.caller ≠ .epoll q n := by simp [caller]
    dsimp only [Eh.condition]
    rw [caller]
    dsimp only
    by_cases finished : s.sched.state u = .finish
    · simp only [finished, decide_true]
      refine ⟨_, .met ?_ plain, rfl⟩
      intro v eq
      simp only [Wait.joined, caller, Option.some.injEq] at eq
      exact eq ▸ finished
    · simp only [finished, decide_false]
      exact startWait_flow w rfl rfl plain
  | object c =>
    have plain : ∀ q n, w.caller ≠ .epoll q n := by simp [caller]
    have joins : ∀ u, w.joined = some u → s.sched.state u = .finish := by
      simp [Wait.joined, caller]
    dsimp only
    split
    · exact ⟨_, .met joins plain, rfl⟩
    · exact startWait_flow w rfl rfl plain
    · exact startWait_flow w rfl rfl plain

theorem loopWait_flow (sys : System T O W C A) (s : Eh T O P W C A) (w : Wait T P C) :
    ∃ p, Flow sys s (.waitLoop w) p ∧
      (s.loopWait sys w).point = Function.update s.point s.self p := by
  have checked := check_stirred sys s w
  rw [Eh.loopWait]
  cases result : s.check sys w with
  | mk ret x =>
    rw [result] at checked
    dsimp only at checked ⊢
    rw [← checked.currentTask, ← checked.point]
    cases ret with
    | some ret => exact ⟨_, .leaves (by rw [result]), rfl⟩
    | none => exact ⟨_, .parks (by rw [result]), rfl⟩

theorem pollStep_flow (inv : Invariant sys s) {pp : PollPoint T} {idle : Bool}
    (step : s.pollStep idle k pp = some s') :
    ∃ p, Flow sys s (.poll pp idle k) p ∧ s'.point = Function.update s.point s.self p := by
  have loop : ∀ (x : Eh T O P W C A) (pos : Node T), x.self = s.self → x.point = s.point →
      ∃ p, Flow sys s (.poll pp idle k) p ∧
        (x.autoDestruct pos idle k).point = Function.update s.point s.self p := by
    intro x pos self point
    rw [← self, ← point]
    obtain ⟨p, ⟨qq, rfl⟩ | rfl, eq⟩ := autoDestruct_flow x pos idle k
    · exact ⟨_, .polling, eq⟩
    · exact ⟨_, .polled, eq⟩
  cases pp with
  | start =>
    rw [Eh.pollStep] at step
    split at step <;> cases step
    · exact loop s _ rfl rfl
    · exact ⟨_, .polled, rfl⟩
  | destroy pos n =>
    cases pos with
    | task u =>
      cases step
      refine ⟨.poll (.unlink (.task u) n) idle k, .polling, ?_⟩
      rw [← (signal_stirred inv.event.owned (.clean (.task u))).point]
      rfl
    | _ => cases step
  | unlink pos n =>
    cases pos with
    | task u =>
      cases step
      exact loop (s.destroy u) n rfl rfl
    | _ => cases step

theorem go_flow (inv : Invariant sys s) (step : s.go sys = some s') :
    ∃ p, Flow sys s (s.point s.self) p ∧ s'.point = Function.update s.point s.self p := by
  have signals : ∀ (g : Signal (EhEvent T O)) (p : Point T P C A),
      ((s.signal g).setPoint s.self p).point = Function.update s.point s.self p := by
    intro g p
    rw [← (signal_stirred inv.event.owned g).point]
    rfl
  rw [Eh.go] at step
  cases at_ : s.point s.self with
  | fresh =>
    rw [at_] at step
    cases step
    exact ⟨_, .fresh, rfl⟩
  | user =>
    rw [at_] at step
    cases step
  | acting a =>
    rw [at_] at step
    cases step
    have same := (perform_stirred sys inv.event.owned a).point
    have moved : ∀ p, ((s.perform sys a).setPoint s.self p).point =
        Function.update s.point s.self p := by
      intro p
      rw [← same]
      rfl
    rw [Eh.actStep]
    split
    · exact ⟨_, .acts, moved _⟩
    · exact ⟨_, .acting, moved _⟩
  | waitTimer w =>
    rw [at_] at step
    cases step
    rw [Eh.startTimer]
    cases caller : w.caller with
    | epoll q n => exact ⟨_, .epollTimer caller, rfl⟩
    | join u => exact ⟨_, .timer (by simp [caller]), rfl⟩
    | object c => exact ⟨_, .timer (by simp [caller]), rfl⟩
  | waitAdd w =>
    rw [at_] at step
    cases step
    rw [Eh.linkReceptor]
    split <;> exact ⟨_, .add, rfl⟩
  | waitLoop w =>
    rw [at_] at step
    cases step
    exact loopWait_flow sys s w
  | waitEnd w ret =>
    rw [at_] at step
    cases step
    exact ⟨_, .ends, rfl⟩
  | returned w ret =>
    rw [at_] at step
    cases step
    rw [Eh.afterWait]
    cases caller : w.caller with
    | epoll q n => exact ⟨_, .goesOn (by simp [Wait.joined, caller]), rfl⟩
    | object c => exact ⟨_, .goesOn (by simp [Wait.joined, caller]), rfl⟩
    | join u =>
      dsimp only
      split_ifs with error
      · exact ⟨_, .goesOn fun _ _ => error, rfl⟩
      · exact ⟨_, .destroys (by simp [Wait.joined, caller]) (not_lt.mp error), signals _ _⟩
  | destroying u =>
    rw [at_] at step
    cases step
    exact ⟨_, .destroyed, rfl⟩
  | finishing =>
    rw [at_] at step
    cases step
    exact ⟨_, .finishes, signals _ _⟩
  | next k =>
    rw [at_] at step
    cases step
    rw [Eh.nextStep]
    split
    · exact ⟨_, .polls, rfl⟩
    · exact ⟨_, .skips, rfl⟩
  | poll pp idle k =>
    rw [at_] at step
    exact pollStep_flow inv step
  | nextLoop k =>
    rw [at_] at step
    simp only [Eh.dispatch] at step
    split at step
    · cases step
      exact ⟨_, .idles, rfl⟩
    · split at step
      · cases step
        exact ⟨_, .switches, rfl⟩
      · cases step
  | nextCheck k =>
    rw [at_] at step
    simp only [Eh.idleCheck] at step
    split at step
    · obtain ⟨p, returns, point⟩ := continueAt_flow step
      exact ⟨p, .resumes returns, point⟩
    · cases step
      exact ⟨_, .stays, rfl⟩
  | resumed k =>
    rw [at_] at step
    obtain ⟨p, returns, point⟩ := continueAt_flow step
    exact ⟨p, .returns returns, point⟩

theorem user_flow (inv : Invariant sys s) (at_ : s.point s.self = .user)
    (step : s.user sys l = some s') : ∃ p, Calls sys s l p ∧ s'.point s.self = p := by
  cases Eh.user_cases step with
  | @wait w joins =>
    obtain ⟨p, entry, point⟩ := enter_flow sys s w
    exact ⟨p, .wait (fun u eq => joins u (Wait.joined_eq_some.mp eq)) entry,
      by rw [point, Function.update_self]⟩
  | act =>
    rw [Eh.actStep]
    split
    · exact ⟨_, .act, setPoint_point _ _ _⟩
    · exact ⟨_, .acting, setPoint_point _ _ _⟩
  | @create t system auto dead =>
    have ne : s.self ≠ t := fun eq => by
      rw [← eq, inv.sched.live] at dead
      cases dead
    exact ⟨_, .create system auto dead, (Function.update_of_ne ne _ _).trans at_⟩
  | yield => exact ⟨_, .yield, setPoint_point _ _ _⟩
  | ret other => exact ⟨_, .ret other, setPoint_point _ _ _⟩
  | exitMain main => exact ⟨_, .exitMain main, setPoint_point _ _ _⟩
  | exit other => exact ⟨_, .exit other, setPoint_point _ _ _⟩
  | epollAdd =>
    refine ⟨_, .epollAdd, ?_⟩
    rw [Eh.ehEpollAddEvent]
    split <;> exact at_
  | epollDel =>
    refine ⟨_, .epollDel, ?_⟩
    rw [Eh.ehEpollDelEvent]
    split <;> exact at_

/-! Who runs behind a step, and who is released in it. -/

omit [DecidableEq O] [DecidableEq P] in
theorem switch_turn {t u : T} {b : Bool} (mem : .switch t u b ∈ s.turns sys l) :
    l = .go ∧ ∃ k, s.point s.self = .nextLoop k := by
  have woken : ∀ ts : List T, .switch t u b ∉ ts.map Turn.ready := by simp
  cases l with
  | go =>
    rw [Eh.turns] at mem
    have next := (List.mem_append.mp mem).resolve_left (woken _)
    refine ⟨rfl, ?_⟩
    cases at_ : s.point s.self with
    | nextLoop k => exact ⟨k, rfl⟩
    | nextCheck k =>
      rw [at_, Eh.nextTurns] at next
      split at next <;> simp at next
    | _ =>
      rw [at_] at next
      cases next
  | create v system auto => cases List.mem_singleton.mp mem
  | _ => exact absurd mem (woken _)

/-- Only a step inside `eh_task_next` changes the running task, and the new one goes on where it
was. -/
theorem step_self (inv : Invariant sys s) (step : s.step sys l = some s') :
    s'.self = s.self ∨ l = .go ∧ s'.self ≠ s.self ∧
      (s'.point s'.self).parked = true ∧ ∃ k, s.point s.self = .nextLoop k := by
  by_cases same : s'.self = s.self
  · exact .inl same
  · have sched := Eh.scheduling inv step
    generalize eq : s.turns sys l = ms at sched
    cases sched with
    | still n sched => exact absurd (congrArg Sched.currentTask sched) same
    | wakes st ts live sched =>
      refine absurd ?_ same
      rw [Eh.self, sched, Sched.foldl_wakeUp_currentTask]
      rfl
    | polled empty sched => exact absurd (congrArg Sched.currentTask sched) same
    | releases u b live finish ne sched => exact absurd (congrArg Sched.currentTask sched) same
    | idles none sched => exact absurd (congrArg Sched.currentTask sched) same
    | resumes idles sched => exact absurd (congrArg Sched.currentTask sched) same
    | stays idles sched => exact absurd (congrArg Sched.currentTask sched) same
    | @switches _ u rest lists calm holds first sched alive idling =>
      have self : s'.self = u := by rw [Eh.self, sched, Sched.switchTo_currentTask]
      obtain ⟨live, ne, -⟩ := (holds.mem .ready u).mp (by simp [first])
      obtain ⟨rfl, at_⟩ := switch_turn (t := s.self) (u := u) (b := s.isReady) (by rw [eq]; simp)
      refine .inr ⟨rfl, same, ?_, at_⟩
      rw [self, (go_aside inv step ne).point]
      exact inv.sched.parked live ne
    | creates system auto eqL dead sched =>
      refine absurd ?_ same
      rw [Eh.self, sched, Sched.ehTaskCreate_currentTask]

theorem step_moved (inv : Invariant sys s) (step : s.step sys l = some s') :
    Moved sys s l s' := by
  have outside : Stirred s s' → l.outside = true → Moved sys s l s' := fun st out =>
    .outside out st.point st.currentTask st.alive
  cases Eh.step_cases step with
  | go step =>
    obtain ⟨p, flow, point⟩ := go_flow inv step
    exact .go flow point
  | user at_ inner =>
    obtain ⟨p, calls, point⟩ := user_flow inv at_ inner
    refine .calls at_ calls point ((step_self inv step).resolve_right ?_)
    rintro ⟨rfl, -⟩
    cases calls
  | signal g => exact outside (signal_stirred inv.event.owned g) rfl
  | wakeUp live => exact outside (.of_wakeUp live) rfl
  | expire t => exact outside (expire_stirred inv.event.owned t) rfl
  | interrupt => exact outside { perform_stirred sys inv.event.owned _ with } rfl
  | interruptGo => exact outside { perform_stirred sys inv.event.owned _ with } rfl

theorem user_alive (inv : Invariant sys s) (step : s.user sys l = some s') {u : T}
    (live : s.alive u = true) : s'.alive u = true := by
  have starts : ∀ (x : Eh T O P W C A) (w : Wait T P C), x.alive = s.alive →
      (x.startWait w).alive u = true := by
    intro x w same
    rw [Eh.startWait]
    split_ifs <;> exact (congrFun same u).trans live
  have enters : ∀ w : Wait T P C, (s.enter sys w).alive u = true := by
    intro w
    rw [Eh.enter]
    split
    · split_ifs <;> exact live
    all_goals
      split
      · exact live
      · exact starts _ w rfl
      · exact starts s w rfl
  cases Eh.user_cases step with
  | @wait w => exact enters w
  | @act a => exact (congrFun (perform_stirred sys inv.event.owned a).alive u).trans live
  | @create t =>
    exact (Function.update_apply s.alive t true u).trans (by split; rfl; exact live)
  | yield => exact live
  | ret => exact live
  | exitMain => exact live
  | exit =>
    have own : Owned { s with sched := s.sched.setState s.self .finish } :=
      ⟨inv.event.owned.receptor, inv.event.owned.epoll, inv.event.owned.single⟩
    exact (congrFun (signal_stirred own (.notify (.task s.self))).alive u).trans live
  | epollAdd =>
    rw [Eh.ehEpollAddEvent]
    split <;> exact live
  | epollDel =>
    rw [Eh.ehEpollDelEvent]
    split <;> exact live

theorem go_alive (inv : Invariant sys s) (step : s.go sys = some s') :
    s'.alive = match (s.point s.self).cleaned with
      | some u => Function.update s.alive u false
      | none => s.alive := by
  have loop : ∀ (x : Eh T O P W C A) (pos : Node T) (idle : Bool) (k : After T P C),
      (x.autoDestruct pos idle k).alive = x.alive := by
    intro x pos idle k
    rw [Eh.autoDestruct]
    split <;> rfl
  rw [Eh.go] at step
  cases at_ : s.point s.self with
  | user =>
    rw [at_] at step
    cases step
  | acting a =>
    rw [at_] at step
    cases step
    exact (perform_stirred sys inv.event.owned a).alive
  | waitAdd w =>
    rw [at_] at step
    cases step
    rw [Eh.linkReceptor]
    split <;> rfl
  | waitLoop w =>
    rw [at_] at step
    cases step
    have checked := (check_stirred sys s w).alive
    rw [Eh.loopWait]
    cases result : s.check sys w with
    | mk ret x =>
      rw [result] at checked
      cases ret <;> exact checked
  | returned w ret =>
    rw [at_] at step
    cases step
    rw [Eh.afterWait]
    split
    · split
      · rfl
      · exact (signal_stirred inv.event.owned _).alive
    · rfl
    · rfl
  | finishing =>
    rw [at_] at step
    cases step
    exact (signal_stirred inv.event.owned _).alive
  | next k =>
    rw [at_] at step
    cases step
    rw [Eh.nextStep]
    split <;> rfl
  | poll pp idle k =>
    rw [at_] at step
    cases pp with
    | start =>
      simp only [Eh.pollStep] at step
      split at step <;> cases step
      · exact loop _ _ _ _
      · rfl
    | destroy pos n =>
      cases pos with
      | task u =>
        cases step
        exact (signal_stirred inv.event.owned _).alive
      | _ => cases step
    | unlink pos n =>
      cases pos with
      | task u =>
        cases step
        exact loop _ _ _ _
      | _ => cases step
  | nextLoop k =>
    rw [at_] at step
    simp only [Eh.dispatch] at step
    split at step
    · cases step
      rfl
    · split at step
      · cases step
        rfl
      · cases step
  | nextCheck k =>
    rw [at_] at step
    simp only [Eh.idleCheck] at step
    split at step
    · exact (continueAt_moves step).2.1
    · cases step
      rfl
  | resumed k =>
    rw [at_] at step
    exact (continueAt_moves step).2.1
  | _ =>
    rw [at_] at step
    cases step
    rfl

theorem step_released (inv : Invariant sys s) (step : s.step sys l = some s') {u : T}
    (live : s.alive u = true) (dead : s'.alive u = false) :
    l = .go ∧ (s.point s.self).cleaned = some u := by
  have same : s'.alive = s.alive → False := fun eq => by
    rw [eq, live] at dead
    cases dead
  cases Eh.step_cases step with
  | go step =>
    have alive := go_alive inv step
    refine ⟨rfl, ?_⟩
    split at alive
    · next v cleaned =>
      by_cases eq : u = v
      · exact eq ▸ cleaned
      · rw [alive, Function.update_of_ne eq, live] at dead
        cases dead
    · exact (same alive).elim
  | user at_ step =>
    rw [user_alive inv step live] at dead
    cases dead
  | signal g => exact (same (signal_stirred inv.event.owned g).alive).elim
  | wakeUp live => exact (same rfl).elim
  | expire t => exact (same (expire_stirred inv.event.owned t).alive).elim
  | interrupt => exact (same (perform_stirred sys inv.event.owned _).alive).elim
  | interruptGo => exact (same (perform_stirred sys inv.event.owned _).alive).elim

theorem step_dead (inv : Invariant sys s) (step : s.step sys l = some s') {u : T}
    (dead : s.alive u = false) (old : ∀ system auto, l ≠ .create u system auto) :
    s'.alive u = false := by
  have sched := Eh.scheduling inv step
  generalize s.turns sys l = ms at sched
  cases sched with
  | still n sched alive => rwa [alive]
  | wakes st ts live sched alive => rwa [alive]
  | polled empty sched alive => rwa [alive]
  | releases v b live finish ne sched empty alive =>
    rw [alive, Function.update_apply]
    split
    · rfl
    · exact dead
  | idles none sched alive => rwa [alive]
  | resumes idles sched alive => rwa [alive]
  | stays idles sched alive => rwa [alive]
  | switches calm holds first sched alive => rwa [alive]
  | @creates _ t system auto eq new sched alive =>
    have ne : u ≠ t := fun same => old system auto (same ▸ eq)
    rwa [alive, Function.update_of_ne ne]

/-! The end of a task. -/

def Point.final : Point T P C A → Bool
  | .finishing | .next .finished | .poll _ _ .finished | .nextLoop .finished
  | .nextCheck .finished | .resumed .finished => true
  | _ => false

omit [DecidableEq T] [DecidableEq O] [DecidableEq P] in
theorem final_iff (inv : Invariant sys s) {u : T} (live : s.alive u = true) :
    (s.point u).final = true ↔ s.sched.state u = .finish := by
  have points : ∀ (p : Point T P C A) (b : Bool) (st : TaskState), p.admits b st →
      (p.parked = true ∨ b = true) → (p.final = true ↔ st = .finish) := by
    intro p b st admits stays
    cases p with
    | fresh => cases b <;> cases admits <;> simp [Point.final]
    | waitTimer w =>
      cases admits.1
      simp [Point.final]
    | resumed k =>
      cases b with
      | true =>
        obtain ⟨rfl, ne⟩ := admits
        cases k <;> simp [Point.final] at ne ⊢
      | false =>
        cases k with
        | wait w => rcases admits with rfl | rfl <;> simp [Point.final]
        | _ => cases admits; simp [Point.final]
    | next k =>
      cases k with
      | wait w => rcases admits with rfl | rfl <;> simp [Point.final]
      | _ => cases admits; simp [Point.final]
    | poll pp idle k =>
      cases k with
      | wait w => rcases admits with rfl | rfl <;> simp [Point.final]
      | _ => cases admits; simp [Point.final]
    | nextLoop k =>
      cases k with
      | wait w => rcases admits with rfl | rfl <;> simp [Point.final]
      | _ => cases admits; simp [Point.final]
    | nextCheck k =>
      cases k with
      | wait w => rcases admits with rfl | rfl <;> simp [Point.final]
      | _ => cases admits; simp [Point.final]
    | _ =>
      cases admits
      simp [Point.final]
  by_cases self : u = s.self
  · subst self
    exact points _ true _ inv.sched.selfState (.inr rfl)
  · exact points _ false _ (inv.sched.state live self) (.inl (inv.sched.parked live self))

theorem step_final (inv : Invariant sys s) (step : s.step sys l = some s') {u : T}
    (live : s.alive u = true) (final : (s.point u).final = true) :
    (s'.point u).final = true := by
  by_cases own : l = .go ∧ u = s.self
  · obtain ⟨rfl, rfl⟩ := own
    obtain ⟨p, flow, point⟩ := go_flow inv step
    rw [point, Function.update_self]
    generalize s.point s.self = q at flow final
    cases flow with
    | finishes => rfl
    | @polled _ idle k => cases k <;> cases idle <;> first | rfl | cases final
    | @resumes k _ returns =>
      cases k with
      | finished => cases returns
      | _ => cases final
    | @returns k _ returns =>
      cases k with
      | finished => cases returns
      | _ => cases final
    | @leaves w ret => cases final
    | @polls k => cases k <;> first | rfl | cases final
    | @skips k => cases k <;> first | rfl | cases final
    | @polling _ _ _ k => cases k <;> first | rfl | cases final
    | @idles k => cases k <;> first | rfl | cases final
    | @switches k => cases k <;> first | rfl | cases final
    | @stays k => cases k <;> first | rfl | cases final
    | _ => cases final
  · have away : l = .go → u ≠ s.self := fun go eq => own ⟨go, eq⟩
    have busy : s.point u ≠ .user := fun user => by
      rw [user] at final
      cases final
    rw [(step_aside inv live step away busy).point]
    exact final

theorem Sched.foldl_wakeUp_isAutoDestruct (ts : List T) (x : Sched T) (u : T) :
    ((ts.foldl ehTaskWakeUp x).task u).isAutoDestruct = (x.task u).isAutoDestruct := by
  induction ts generalizing x with
  | nil => rfl
  | cons t ts ih => rw [List.foldl_cons, ih, ehTaskWakeUp_isAutoDestruct]

theorem step_isAutoDestruct (inv : Invariant sys s) (step : s.step sys l = some s') {u : T}
    (old : ∀ system auto, l ≠ .create u system auto) :
    (s'.sched.task u).isAutoDestruct = (s.sched.task u).isAutoDestruct := by
  have sched := Eh.scheduling inv step
  generalize s.turns sys l = ms at sched
  cases sched with
  | still n sched => rw [sched]
  | wakes st ts live sched =>
    rw [sched, Sched.foldl_wakeUp_isAutoDestruct, Sched.setState_isAutoDestruct]
  | polled empty sched => rw [sched]
  | releases v b live finish ne sched =>
    rw [sched]
    rfl
  | idles none sched => rw [sched]
  | resumes idles sched => rw [sched, Sched.setState_isAutoDestruct]
  | stays idles sched => rw [sched]
  | switches calm holds first sched => rw [sched, Sched.switchTo_isAutoDestruct]
  | @creates _ t system auto eq dead sched =>
    have ne : u ≠ t := fun same => old system auto (same ▸ eq)
    rw [sched, Sched.ehTaskCreate, Sched.ehTaskWakeUp_isAutoDestruct]
    dsimp only
    rw [Function.update_of_ne ne]

end EventHub.Kernel
