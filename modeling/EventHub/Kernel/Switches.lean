import EventHub.Kernel.Waits

/-! The steps of `eh_task_next` and of the life of a task keep the invariant. -/

namespace EventHub.Kernel
open Library Event

variable {T O P W C A : Type} {sys : System T O W C A} {s s' : Eh T O P W C A}
  {p : Point T P C A} {u : T} {k : After T P C}

theorem SchedOk.finished (h : SchedOk s) (live : s.alive u = true) (ne : u ≠ s.self)
    (finish : s.sched.state u = .finish) : s.point u = .resumed .finished := by
  have parked := h.parked live ne
  have state := h.state live ne
  rw [finish] at state
  cases point : s.point u with
  | fresh =>
    rw [point] at state
    cases state
  | resumed k =>
    rw [point] at state
    cases k with
    | yield => cases state
    | finished => rfl
    | wait w => rcases state with state | state <;> cases state
  | _ =>
    rw [point] at parked
    cases parked

section Destroy
variable [DecidableEq T]

theorem Invariant.destroyed (h : Invariant sys s) (live : s.alive u = true)
    (finish : s.sched.state u = .finish) (ne : u ≠ s.self)
    (cleaned : ∀ r, r ∉ s.events.receptors (.task u))
    (links : s'.sched.links = (s.sched.ehListDel u).links)
    (task : s'.sched.task = s.sched.task) (self : s'.self = s.self)
    (alive : s'.alive = Function.update s.alive u false)
    (registered : s'.registered = s.registered) (events : s'.events = s.events)
    (reached : s'.reached = s.reached) (point : s'.point = Function.update s.point s.self p)
    (admits : p.admits true (s.sched.state s.self))
    (waits : p.waits = (s.point s.self).waits) (timing : p.timing = (s.point s.self).timing)
    (poll : ∀ l i, Holds s.sched (s.alive · = true) l → PollOk l (s.point s.self) → u ∈ l i →
      Holds s'.sched (s'.alive · = true) (Function.update l i ((l i).erase u)) →
      PollOk (Function.update l i ((l i).erase u)) p)
    (joins : p.joins = none) (target : p.target = none) (clean : p.cleaned = none) :
    Invariant sys s' := by
  have aliveEq : ∀ t, s'.alive t = true ↔ s.alive t = true ∧ t ≠ u := by
    intro t
    rw [alive, Function.update_apply]
    by_cases eq : t = u <;> simp [eq]
  have state : ∀ t, s'.sched.state t = s.sched.state t := fun t => by
    rw [Sched.state, Sched.state, task]
  have self_point : s'.point s.self = p := by rw [point, Function.update_self]
  have other : ∀ {t}, t ≠ s.self → s'.point t = s.point t := fun ne => by
    rw [point, Function.update_of_ne ne]
  have atU := h.sched.finished live ne finish
  have waitsAt : ∀ t, (s'.point t).waits = (s.point t).waits := by
    intro t
    by_cases eq : t = s.self
    · rw [eq, self_point, waits]
    · rw [other eq]
  have timingAt : ∀ t, (s'.point t).timing = (s.point t).timing := by
    intro t
    by_cases eq : t = s.self
    · rw [eq, self_point, timing]
    · rw [other eq]
  -- the released task has left its last wait
  have neU : ∀ {t}, ((s.point t).waits ≠ none ∨ (s.point t).timing = true) → t ≠ u := by
    rintro t busy rfl
    rw [atU] at busy
    simp [Point.waits, Point.timing] at busy
  refine ⟨⟨?_, ?_, ?_, ?_⟩, ⟨fun t => ⟨?_, ?_, ?_, ?_, ?_, ?_, ?_⟩, ?_, ?_, ?_⟩, ?_, ?_, ?_⟩
  · obtain ⟨l, holds, pollOk⟩ := h.sched.lists
    obtain ⟨i, home⟩ : ∃ i, (s.sched.task u).home = some i := by
      cases auto : (s.sched.task u).isAutoDestruct
      · exact ⟨.finish, home_finish.mpr ⟨finish, auto⟩⟩
      · exact ⟨.autoDestruct, home_autoDestruct.mpr ⟨finish, auto⟩⟩
    have mem : u ∈ l i := (holds.mem i u).mpr ⟨live, ne, home⟩
    have next : Holds s'.sched (s'.alive · = true) (Function.update l i ((l i).erase u)) := by
      have del := (holds.ehListDel mem).congr links task self
      exact ⟨del.rings, (aliveEq _).mpr del.current,
        fun j t => (del.mem j t).trans (by rw [aliveEq]),
        fun t liveT => del.parked t ((aliveEq t).mp liveT)⟩
    refine ⟨_, next, ?_⟩
    rw [self, self_point]
    exact poll l i holds pollOk mem next
  · intro t liveT neT
    rw [self] at neT
    rw [other neT]
    exact h.sched.parked ((aliveEq t).mp liveT).1 neT
  · intro t liveT neT
    rw [self] at neT
    rw [other neT, state]
    exact h.sched.state ((aliveEq t).mp liveT).1 neT
  · rw [self, self_point, state]
    exact admits
  · intro e mem
    rw [events] at mem
    obtain ⟨liveT, w, eq, event⟩ := (h.event.task t).wait mem
    rw [aliveEq, waitsAt]
    exact ⟨⟨liveT, neU (.inl (by simp [eq]))⟩, w, eq, event⟩
  · intro e mem
    rw [events] at mem
    obtain ⟨liveT, eq, event⟩ := (h.event.task t).timer mem
    rw [aliveEq, timingAt]
    exact ⟨⟨liveT, neU (.inr eq)⟩, eq, event⟩
  · intro w e liveT eq event
    rw [waitsAt] at eq
    rw [events]
    exact (h.event.task t).listed ((aliveEq t).mp liveT).1 eq event
  · intro w e liveT eq event err
    rw [waitsAt] at eq
    rw [events] at err
    rw [reached]
    exact (h.event.task t).error ((aliveEq t).mp liveT).1 eq event err
  · intro liveT stopped
    rw [state] at stopped
    rw [reached]
    exact (h.event.task t).waiting ((aliveEq t).mp liveT).1 stopped
  · intro q eq
    rw [events] at eq
    obtain ⟨liveT, w, n, eqW, caller⟩ := (h.event.task t).wakeupTask eq
    rw [aliveEq, waitsAt]
    exact ⟨⟨liveT, neU (.inl (by simp [eqW]))⟩, w, n, eqW, caller⟩
  · intro e mem
    rw [events] at mem ⊢
    exact (h.event.task t).clear mem
  · rw [events]
    exact h.event.nodup
  · intro e q x mem
    rw [events] at mem
    rw [registered]
    exact h.event.epoll mem
  · intro v r mem
    rw [events] at mem
    refine (aliveEq v).mpr ⟨h.event.event mem, ?_⟩
    rintro rfl
    exact cleaned r mem
  · intro v eq
    rw [self, self_point, joins] at eq
    cases eq
  · intro v eq
    rw [self, self_point, target] at eq
    cases eq
  · intro v r eq
    rw [self, self_point, clean] at eq
    cases eq

theorem Invariant.destroying (h : Invariant sys s) (at_ : s.point s.self = .destroying u) :
    Invariant sys ((s.destroy u).setPoint s.self .user) := by
  have runs := h.sched.selfState
  have target := h.join.target (u := u)
  have cleaned := fun r => h.join.cleaned (u := u) (r := r)
  rw [at_] at runs target cleaned
  obtain ⟨live, finish, ne⟩ := target rfl
  exact h.destroyed live finish ne (fun r => cleaned r rfl) (p := .user) rfl rfl rfl rfl rfl rfl
    rfl rfl runs (by rw [at_]; rfl) (by rw [at_]; rfl) (fun _ _ _ _ _ _ => trivial) rfl rfl rfl

end Destroy

/-! `eh_poll`. -/

theorem first_autoDestruct {s : Sched T} {alive : T → Prop} {l : Home → List T}
    (h : Holds s alive l) :
    s.links.next .taskFinishAutoDestructListHead = autoNode (l .autoDestruct) := by
  have ring := h.rings.ring .autoDestruct
  rw [Sched.nodes, Sched.head] at ring
  cases eq : l .autoDestruct with
  | nil =>
    rw [eq] at ring
    exact (Links.ring_singleton.mp ring).1
  | cons v rest =>
    rw [eq] at ring
    exact ring.next

theorem next_autoDestruct {s : Sched T} {alive : T → Prop} {l : Home → List T}
    (h : Holds s alive l) {rest : List T} (eq : l .autoDestruct = u :: rest) :
    s.links.next (.task u) = autoNode rest := by
  have ring := h.rings.ring .autoDestruct
  rw [Sched.nodes, Sched.head, eq] at ring
  have turned : s.links.Ring (.task u :: (rest.map .task ++ [.taskFinishAutoDestructListHead])) :=
    ring.rotate_one
  cases rest with
  | nil => exact turned.next
  | cons v rest => exact turned.next

theorem autoNode_ne_head {l : List T} (ne : autoNode l ≠ .taskFinishAutoDestructListHead) :
    ∃ v rest, l = v :: rest := by
  cases l with
  | nil => exact absurd rfl ne
  | cons v rest => exact ⟨v, rest, rfl⟩

theorem poll_waits (pp qq : PollPoint T) (b c : Bool) (k : After T P C) :
    (Point.poll pp b k : Point T P C A).waits = (Point.poll qq c k : Point T P C A).waits := by
  cases k <;> rfl

theorem poll_timing (pp qq : PollPoint T) (b c : Bool) (k : After T P C) :
    (Point.poll pp b k : Point T P C A).timing = (Point.poll qq c k : Point T P C A).timing := by
  cases k <;> rfl

/-- The point behind `eh_poll`. -/
def pollEnd (idle : Bool) (k : After T P C) : Point T P C A :=
  if idle then .nextCheck k else .nextLoop k

theorem pollEnd_waits (pp : PollPoint T) (b : Bool) (k : After T P C) :
    (pollEnd b k : Point T P C A).waits = (Point.poll pp b k : Point T P C A).waits := by
  cases b <;> cases k <;> rfl

theorem pollEnd_timing (pp : PollPoint T) (b : Bool) (k : After T P C) :
    (pollEnd b k : Point T P C A).timing = (Point.poll pp b k : Point T P C A).timing := by
  cases b <;> cases k <;> rfl

theorem pollEnd_admits {pp : PollPoint T} {b : Bool} {st : TaskState}
    (h : (Point.poll pp b k : Point T P C A).admits true st) :
    (pollEnd b k : Point T P C A).admits true st := by
  cases b <;> exact h

theorem pollEnd_quiet (b : Bool) (k : After T P C) :
    (∀ l, PollOk l (pollEnd b k : Point T P C A)) ∧
      (pollEnd b k : Point T P C A).joins = none ∧
      (pollEnd b k : Point T P C A).target = none ∧
      (pollEnd b k : Point T P C A).cleaned = none := by
  cases b <;> exact ⟨fun l => trivial, rfl, rfl, rfl⟩

section Poll
variable [DecidableEq T] {idle : Bool} {pos n : Node T}

theorem Invariant.pollEnds (h : Invariant sys s) {pp : PollPoint T} (b : Bool)
    (at_ : s.point s.self = .poll pp idle k) :
    Invariant sys ({ s with sched := { s.sched with autoDestructTask := b } }.setPoint s.self
      (pollEnd idle k)) := by
  have admits := h.sched.selfState
  rw [at_] at admits
  obtain ⟨poll, joins, target, cleaned⟩ := pollEnd_quiet (A := A) idle k
  have mv : Moves sys s ({ s with sched := { s.sched with autoDestructTask := b } }.setPoint
      s.self (pollEnd idle k)) (pollEnd idle k) := by
    refine ⟨rfl, rfl, rfl, rfl, rfl, ?_, ?_, ?_⟩
    · rw [at_, pollEnd_waits pp]
      exact fun eq => eq
    · rw [at_, pollEnd_waits pp]
      exact fun eq _ => eq
    · rw [at_, pollEnd_timing pp]
      exact fun eq => eq
  exact h.moves mv rfl rfl rfl (pollEnd_admits admits) (fun l _ _ => poll l) (by simp [joins])
    (by simp [target]) (by simp [cleaned])

theorem Invariant.autoDestructs (h : Invariant sys s)
    (at_ : s.point s.self = .poll .start idle k) :
    Invariant sys
      (s.autoDestruct (s.sched.links.next .taskFinishAutoDestructListHead) idle k) := by
  rw [Eh.autoDestruct]
  split
  · exact h.pollEnds false at_
  · next ne =>
    have admits := h.sched.selfState
    rw [at_] at admits
    refine h.setAfter admits ?_ ?_ ?_ rfl rfl rfl
    · rw [at_]
      exact poll_waits _ _ _ _ k
    · rw [at_]
      exact poll_timing _ _ _ _ k
    · intro l holds _
      rw [first_autoDestruct holds] at ne ⊢
      obtain ⟨v, rest, eq⟩ := autoNode_ne_head ne
      rw [eq]
      exact ⟨v, rest, eq, rfl, next_autoDestruct holds eq⟩

theorem Invariant.autoDestructNext (h : Invariant sys s)
    (at_ : s.point s.self = .poll (.unlink (.task u) n) idle k) :
    Invariant sys ((s.destroy u).autoDestruct n idle k) := by
  have admits := h.sched.selfState
  have cleaned := fun r => h.join.cleaned (u := u) (r := r)
  obtain ⟨live, ne, finish⟩ : s.alive u = true ∧ u ≠ s.self ∧ s.sched.state u = .finish := by
    obtain ⟨l, holds, pollOk⟩ := h.sched.lists
    rw [at_] at pollOk
    obtain ⟨v, rest, first, eq, -⟩ := pollOk
    cases eq
    obtain ⟨live, ne, home⟩ := (holds.mem .autoDestruct u).mp (by simp [first])
    exact ⟨live, ne, (home_autoDestruct.mp home).1⟩
  rw [at_] at admits cleaned
  rw [Eh.autoDestruct]
  split
  · obtain ⟨poll, joins, target, clean⟩ := pollEnd_quiet (A := A) idle k
    exact h.destroyed live finish ne (fun r => cleaned r rfl) (p := pollEnd idle k) rfl rfl rfl
      rfl rfl rfl rfl rfl (pollEnd_admits admits) (by rw [at_, pollEnd_waits])
      (by rw [at_, pollEnd_timing]) (fun _ _ _ _ _ _ => poll _) joins target clean
  · next more =>
    refine h.destroyed live finish ne (fun r => cleaned r rfl) rfl rfl rfl rfl rfl rfl rfl rfl
      admits ?_ ?_ ?_ rfl rfl rfl
    · rw [at_]
      exact poll_waits _ _ _ _ k
    · rw [at_]
      exact poll_timing _ _ _ _ k
    · intro l i holds pollOk mem next
      rw [at_] at pollOk
      obtain ⟨v, rest, first, eq, rfl⟩ := pollOk
      cases eq
      obtain ⟨v, rest, rfl⟩ := autoNode_ne_head more
      have home : i = .autoDestruct := home_unique holds.rings mem (by simp [first])
      subst home
      have left : Function.update l .autoDestruct ((l .autoDestruct).erase u) .autoDestruct =
          v :: rest := by
        simp [first]
      exact ⟨v, rest, left, rfl, next_autoDestruct next left⟩

variable [DecidableEq O] [DecidableEq P]

theorem Invariant.autoDestructClean (h : Invariant sys s)
    (at_ : s.point s.self = .poll (.destroy (.task u) n) idle k) :
    Invariant sys ((s.signal (.clean (.task u))).setPoint s.self
      (.poll (.unlink (.task u) n) idle k)) := by
  have stirred := signal_stirred h.event.owned (.clean (.task u))
  have cleaned := h.stirred stirred
  have self := stirred.currentTask
  have at' : (s.signal (.clean (.task u))).point (s.signal (.clean (.task u))).self =
      .poll (.destroy (.task u) n) idle k := by
    rw [stirred.point, self, at_]
  have admits := cleaned.sched.selfState
  rw [at'] at admits
  rw [← self]
  have mv : Moves sys (s.signal (.clean (.task u)))
      ((s.signal (.clean (.task u))).setPoint (s.signal (.clean (.task u))).self
        (.poll (.unlink (.task u) n) idle k)) (.poll (.unlink (.task u) n) idle k) := by
    refine ⟨rfl, rfl, rfl, rfl, rfl, ?_, ?_, ?_⟩
    · rw [at', poll_waits (.unlink (.task u) n) (.destroy (.task u) n) idle idle k]
      exact fun eq => eq
    · rw [at', poll_waits (.unlink (.task u) n) (.destroy (.task u) n) idle idle k]
      exact fun eq _ => eq
    · rw [at', poll_timing (.unlink (.task u) n) (.destroy (.task u) n) idle idle k]
      exact fun eq => eq
  refine cleaned.moves mv rfl rfl rfl admits ?_ (by simp [Point.joins]) (by simp [Point.target])
    ?_
  · intro l _ pollOk
    rw [at'] at pollOk
    exact pollOk
  · intro v r eq mem
    cases eq
    rw [Eh.signal, Eh.reach] at mem
    rw [Events.ehEventClean_receptors] at mem
    simp at mem

theorem Invariant.pollStep (h : Invariant sys s) {pp : PollPoint T}
    (at_ : s.point s.self = .poll pp idle k) (step : s.pollStep idle k pp = some s') :
    Invariant sys s' := by
  cases pp with
  | start =>
    rw [Eh.pollStep] at step
    split at step
    · cases step
      exact h.autoDestructs at_
    · cases step
      exact h.pollEnds s.sched.autoDestructTask at_
  | destroy pos n =>
    cases pos with
    | task u =>
      cases step
      exact h.autoDestructClean at_
    | _ => cases step
  | unlink pos n =>
    cases pos with
    | task u =>
      cases step
      exact h.autoDestructNext at_
    | _ => cases step

end Poll

/-! `eh_task_next`. -/

theorem After.admits_switched {st : TaskState} (h : k.admits .runing st) :
    k.admits .ready (if st = .runing then .ready else st) := by
  cases k with
  | yield =>
    cases h
    rfl
  | finished =>
    cases h
    rfl
  | wait w => rcases h with rfl | rfl <;> simp [After.admits]

theorem Point.admits_run {p : Point T P C A} (parked : p.parked = true)
    (h : p.admits false .ready) : p.admits true .runing := by
  cases p with
  | fresh => rfl
  | resumed k =>
    refine ⟨rfl, ?_⟩
    rintro rfl
    cases h
  | _ => cases parked

theorem Point.parked_quiet {p : Point T P C A} (h : p.parked = true) :
    (∀ l, PollOk l p) ∧ p.joins = none ∧ p.target = none ∧ p.cleaned = none := by
  cases p with
  | fresh => exact ⟨fun l => trivial, rfl, rfl, rfl⟩
  | resumed k => exact ⟨fun l => trivial, rfl, rfl, rfl⟩
  | _ => cases h

section Next
variable [DecidableEq T]

theorem Invariant.startPoll (h : Invariant sys s) (idle : Bool)
    (at_ : s.point s.self = .next k ∨ s.point s.self = .nextLoop k) :
    Invariant sys (s.startPoll idle k) := by
  have waits : (s.point s.self).waits = (Point.poll .start idle k : Point T P C A).waits := by
    rcases at_ with at_ | at_ <;> rw [at_] <;> cases k <;> rfl
  have timing : (s.point s.self).timing = (Point.poll .start idle k : Point T P C A).timing := by
    rcases at_ with at_ | at_ <;> rw [at_] <;> cases k <;> rfl
  have admits : (Point.poll .start idle k : Point T P C A).admits true (s.sched.state s.self) := by
    have := h.sched.selfState
    rcases at_ with at_ | at_ <;> rw [at_] at this <;> exact this
  have mv : Moves sys s (s.startPoll idle k) (.poll .start idle k) := by
    refine ⟨rfl, rfl, rfl, rfl, rfl, ?_, ?_, ?_⟩
    · rw [waits]
      exact fun eq => eq
    · rw [waits]
      exact fun eq _ => eq
    · rw [timing]
      exact fun eq => eq
  exact h.moves mv rfl rfl rfl admits (fun l _ _ => trivial) (by simp [Point.joins])
    (by simp [Point.target]) (by simp [Point.cleaned])

theorem Invariant.toLoop (h : Invariant sys s)
    (at_ : s.point s.self = .next k ∨ s.point s.self = .nextCheck k) :
    Invariant sys (s.setPoint s.self (.nextLoop k)) := by
  have admits : (Point.nextLoop k : Point T P C A).admits true (s.sched.state s.self) := by
    have := h.sched.selfState
    rcases at_ with at_ | at_ <;> rw [at_] at this <;> exact this
  apply h.setAfter admits
  · rcases at_ with at_ | at_ <;> rw [at_] <;> cases k <;> rfl
  · rcases at_ with at_ | at_ <;> rw [at_] <;> cases k <;> rfl
  · exact fun l _ _ => trivial
  · rfl
  · rfl
  · rfl

theorem Invariant.nextStep (h : Invariant sys s) (at_ : s.point s.self = .next k) :
    Invariant sys (s.nextStep sys k) := by
  rw [Eh.nextStep]
  split
  · exact h.startPoll false (.inl at_)
  · exact h.toLoop (.inl at_)

theorem Invariant.dispatch (h : Invariant sys s) (at_ : s.point s.self = .nextLoop k)
    (step : s.dispatch k = some s') : Invariant sys s' := by
  obtain ⟨l, holds, -⟩ := h.sched.lists
  have admits := h.sched.selfState
  rw [at_] at admits
  rw [Eh.dispatch] at step
  split at step
  · cases step
    exact h.startPoll true (.inr at_)
  · next more =>
    have ne : l .ready ≠ [] := fun empty => more (holds.ringEmpty.mpr empty)
    split at step
    · next u next =>
      cases step
      obtain ⟨rest, ready⟩ := holds.ready_of_next ne next
      have memU : u ∈ l .ready := by simp [ready]
      obtain ⟨live, neU, home⟩ := (holds.mem .ready u).mp memU
      have parkedU := h.sched.parked live neU
      have stateU := h.sched.state live neU
      rw [home_ready.mp home] at stateU
      obtain ⟨poll, joins, target, cleaned⟩ := Point.parked_quiet parkedU
      have point : ∀ {t}, t ≠ s.self → Function.update s.point s.self (.resumed k) t = s.point t :=
        fun ne => Function.update_of_ne ne _ _
      have waiting : ∀ t, (s.sched.switchTo u).state t = .wait → s.sched.state t = .wait := by
        intro t waits
        rw [Sched.switchTo_state] at waits
        split at waits
        · cases waits
        · split at waits
          · cases waits
          · exact waits
      refine ⟨⟨?_, ?_, ?_, ?_⟩, h.event.moves ⟨rfl, rfl, rfl, rfl, rfl, ?_, ?_, ?_⟩ waiting,
        ?_, ?_, ?_⟩
      · refine ⟨_, holds.switchTo ready, ?_⟩
        simp only [Eh.self, Sched.switchTo_currentTask, Eh.setPoint, point neU]
        exact poll _
      · intro t liveT neT
        simp only [Eh.self, Sched.switchTo_currentTask] at neT
        by_cases eq : t = s.self
        · subst eq
          simp [Eh.setPoint, Point.parked]
        · simp only [Eh.setPoint, point eq]
          exact h.sched.parked liveT eq
      · intro t liveT neT
        simp only [Eh.self, Sched.switchTo_currentTask] at neT
        by_cases eq : t = s.self
        · subst eq
          simp only [Eh.setPoint, Function.update_self]
          rw [Sched.switchTo_state, if_neg neT]
          simp only [Eh.self, true_and]
          exact After.admits_switched admits
        · simp only [Eh.setPoint, point eq]
          rw [Sched.switchTo_state, if_neg neT, if_neg fun both => eq both.1]
          exact h.sched.state liveT eq
      · simp only [Eh.self, Sched.switchTo_currentTask, Eh.setPoint, point neU]
        rw [Sched.switchTo_state, if_pos rfl]
        exact Point.admits_run parkedU stateU
      · rw [at_]
        cases k <;> exact fun eq => eq
      · rw [at_]
        cases k <;> exact fun eq _ => eq
      · rw [at_]
        cases k <;> exact fun eq => eq
      · intro v eq
        simp only [Eh.self, Sched.switchTo_currentTask, Eh.setPoint, point neU] at eq
        rw [joins] at eq
        cases eq
      · intro v eq
        simp only [Eh.self, Sched.switchTo_currentTask, Eh.setPoint, point neU] at eq
        rw [target] at eq
        cases eq
      · intro v r eq
        simp only [Eh.self, Sched.switchTo_currentTask, Eh.setPoint, point neU] at eq
        rw [cleaned] at eq
        cases eq
    · cases step

theorem Invariant.returns (h : Invariant sys s) (s₁ : Eh T O P W C A)
    (at_ : s.point s.self = .nextCheck k ∨ s.point s.self = .resumed k)
    (same : s₁ = { s with sched := s₁.sched }) (self : s₁.self = s.self)
    (forth : ∀ l, Holds s.sched (s.alive · = true) l → Holds s₁.sched (s.alive · = true) l)
    (others : ∀ t, t ≠ s.self → s₁.sched.state t = s.sched.state t)
    (runs : s₁.sched.state s.self = .runing) (step : s₁.continueAt k = some s') :
    Invariant sys s' := by
  obtain ⟨p, rfl, waits, timing, admits, poll, joins, target, cleaned⟩ :
      ∃ p : Point T P C A, s' = s₁.setPoint s.self p ∧ p.waits = (s.point s.self).waits ∧
      p.timing = (s.point s.self).timing ∧ p.admits true .runing ∧ (∀ l, PollOk l p) ∧
      p.joins = none ∧ p.target = none ∧ p.cleaned = none := by
    cases k with
    | yield =>
      cases step
      refine ⟨.user, by rw [self], ?_, ?_, rfl, fun l => trivial, rfl, rfl, rfl⟩
      · rcases at_ with at_ | at_ <;> rw [at_] <;> rfl
      · rcases at_ with at_ | at_ <;> rw [at_] <;> rfl
    | finished => cases step
    | wait w =>
      cases step
      refine ⟨.waitLoop w, by rw [self], ?_, ?_, rfl, fun l => trivial, rfl, rfl, rfl⟩
      · rcases at_ with at_ | at_ <;> rw [at_] <;> rfl
      · rcases at_ with at_ | at_ <;> rw [at_] <;> rfl
  have mv : Moves sys s (s₁.setPoint s.self p) p := by
    rw [same]
    refine ⟨rfl, rfl, rfl, rfl, rfl, ?_, ?_, ?_⟩
    · rw [waits]
      exact fun eq => eq
    · rw [waits]
      exact fun eq _ => eq
    · rw [timing]
      exact fun eq => eq
  have waiting : ∀ t, s₁.sched.state t = .wait → s.sched.state t = .wait := by
    intro t stopped
    by_cases eq : t = s.self
    · subst eq
      rw [runs] at stopped
      cases stopped
    · rw [← others t eq]
      exact stopped
  exact h.of_event (h.event.moves mv waiting) mv.point self mv.alive forth others
    (runs ▸ admits) (fun l _ _ => poll l) (by simp [joins]) (by simp [target])
    (by simp [cleaned])

theorem Invariant.idleCheck (h : Invariant sys s) (at_ : s.point s.self = .nextCheck k)
    (step : s.idleCheck k = some s') : Invariant sys s' := by
  rw [Eh.idleCheck] at step
  split at step
  · exact h.returns { s with sched := s.sched.setState s.self .runing } (.inl at_) rfl rfl
      (fun l holds => holds.setState_current .runing) (fun t ne => by simp [ne]) (by simp) step
  · cases step
    exact h.toLoop (.inr at_)

theorem Invariant.resume (h : Invariant sys s) (at_ : s.point s.self = .resumed k)
    (step : s.resume k = some s') : Invariant sys s' := by
  have admits := h.sched.selfState
  rw [at_] at admits
  exact h.returns
    { s with sched := { s.sched with dispatchCnt := (s.sched.dispatchCnt + 1) % 2 ^ 32 } }
    (.inr at_) rfl rfl (fun l holds => holds.congr rfl rfl rfl) (fun t _ => rfl) admits.1 step

end Next

/-! The life of a task. -/

section Life
variable [DecidableEq T]

theorem Invariant.fromUser (h : Invariant sys s) (st : TaskState)
    (user : s.point s.self = .user) (idle : p.Idle) (ne : st ≠ .wait) (admits : p.admits true st) :
    Invariant sys ({ s with sched := s.sched.setState s.self st }.setPoint s.self p) := by
  have mv : Moves sys s ({ s with sched := s.sched.setState s.self st }.setPoint s.self p) p := by
    refine ⟨rfl, rfl, rfl, rfl, rfl, ?_, ?_, ?_⟩
    · simp [user, Point.waits]
    · simp [idle.waits]
    · simp [user, Point.timing, Point.waits]
  have state : ∀ t, ({ s with sched := s.sched.setState s.self st }.setPoint s.self p).sched.state t
      = if t = s.self then st else s.sched.state t := fun t => by simp [Eh.setPoint]
  refine h.of_event (h.event.moves mv ?_) mv.point rfl rfl
    (fun l holds => holds.setState_current st) ?_ ?_ (fun l _ _ => idle.poll l)
    (by simp [idle.joins]) (by simp [idle.target]) (by simp [idle.cleaned])
  · intro t waits
    rw [state] at waits
    split at waits
    · exact absurd waits ne
    · exact waits
  · intro t neT
    rw [state, if_neg neT]
  · rw [state, if_pos rfl]
    exact admits

variable [DecidableEq O]

theorem Invariant.create (h : Invariant sys s) (dead : s.alive u = false) (system auto : Bool) :
    Invariant sys (s.create u system auto) := by
  have notLive : ¬ s.alive u = true := by simp [dead]
  have ne : u ≠ s.self := fun eq => notLive (eq ▸ h.sched.live)
  have aliveEq : ∀ t, (s.create u system auto).alive t = true ↔ s.alive t = true ∨ t = u := by
    intro t
    by_cases eq : t = u <;> simp [Eh.create, Eh.setPoint, eq]
  have point : ∀ t, (s.create u system auto).point t = if t = u then .fresh else s.point t := by
    intro t
    by_cases eq : t = u <;> simp [Eh.create, Eh.setPoint, eq]
  have self : (s.create u system auto).self = s.self := by
    simp [Eh.create, Eh.setPoint, Eh.self]
  have state : ∀ t, (s.create u system auto).sched.state t =
      if t = u then .ready else s.sched.state t := by
    intro t
    simp [Eh.create, Eh.setPoint]
  have receptors : (s.create u system auto).events.receptors = s.events.receptors := by
    have empty : s.events.receptors (.task u) = [] :=
      List.eq_nil_iff_forall_not_mem.mpr fun r mem => notLive (h.event.event mem)
    simp only [Eh.create, Eh.setPoint, ← empty, Function.update_eq_self]
  have flags : (s.create u system auto).events.flags = s.events.flags := rfl
  have epoll : (s.create u system auto).events.epoll = s.events.epoll := rfl
  have reached : ∀ t, t ≠ u → (s.create u system auto).reached t = s.reached t := by
    intro t neT
    simp [Eh.create, Eh.setPoint, neT]
  refine ⟨⟨?_, ?_, ?_, ?_⟩, ⟨fun t => ?_, ?_, ?_, ?_⟩, ?_, ?_, ?_⟩
  · obtain ⟨l, holds, pollOk⟩ := h.sched.lists
    refine ⟨created l u system, ?_, ?_⟩
    · have made := holds.ehTaskCreate notLive system auto
      exact ⟨made.rings, (aliveEq _).mpr made.current,
        fun i t => (made.mem i t).trans (by rw [aliveEq]; rfl),
        fun t live => made.parked t ((aliveEq t).mp live)⟩
    · rw [self, point, if_neg ne.symm]
      exact pollOk.congr (by simp [created])
  · intro t live neT
    rw [self] at neT
    rw [point]
    split
    · rfl
    · next neU => exact h.sched.parked (((aliveEq t).mp live).resolve_right neU) neT
  · intro t live neT
    rw [self] at neT
    rw [point, state]
    split
    · rfl
    · next neU => exact h.sched.state (((aliveEq t).mp live).resolve_right neU) neT
  · rw [self, point, state, if_neg ne.symm, if_neg ne.symm]
    exact h.sched.selfState
  · by_cases eq : t = u
    · subst eq
      refine ⟨?_, ?_, ?_, ?_, ?_, ?_, ?_⟩
      · intro e mem
        rw [receptors] at mem
        exact absurd ((h.event.task t).wait mem).1 notLive
      · intro e mem
        rw [receptors] at mem
        exact absurd ((h.event.task t).timer mem).1 notLive
      · intro w e _ waits
        rw [point, if_pos rfl] at waits
        cases waits
      · intro w e _ waits
        rw [point, if_pos rfl] at waits
        cases waits
      · intro _ waits
        rw [state, if_pos rfl] at waits
        cases waits
      · intro q waits
        rw [epoll] at waits
        exact absurd ((h.event.task t).wakeupTask waits).1 notLive
      · intro e mem
        rw [receptors] at mem
        exact absurd ((h.event.task t).wait mem).1 notLive
    · have alive : (s.create u system auto).alive t = s.alive t := by
        simp [Eh.create, Eh.setPoint, eq]
      have own := h.event.task t
      refine ⟨?_, ?_, ?_, ?_, ?_, ?_, ?_⟩
      · rw [receptors, alive, point, if_neg eq]
        exact own.wait
      · rw [receptors, alive, point, if_neg eq]
        exact own.timer
      · rw [receptors, flags, alive, point, if_neg eq]
        exact own.listed
      · rw [flags, alive, point, if_neg eq, reached t eq]
        exact own.error
      · rw [alive, state, if_neg eq, reached t eq]
        exact own.waiting
      · rw [epoll, alive, point, if_neg eq]
        exact own.wakeupTask
      · rw [receptors, flags]
        exact own.clear
  · rw [receptors]
    exact h.event.nodup
  · rw [receptors]
    exact h.event.epoll
  · intro v r mem
    rw [receptors] at mem
    exact (aliveEq v).mpr (.inl (h.event.event mem))
  · intro v eq
    rw [self, point, if_neg ne.symm] at eq
    exact (aliveEq v).mpr (.inl (h.join.joins eq))
  · intro v eq
    rw [self, point, if_neg ne.symm] at eq
    obtain ⟨live, finish, neV⟩ := h.join.target eq
    have neU : v ≠ u := fun eq => notLive (eq ▸ live)
    rw [self, state, if_neg neU]
    exact ⟨(aliveEq v).mpr (.inl live), finish, neV⟩
  · intro v r eq
    rw [self, point, if_neg ne.symm] at eq
    rw [receptors]
    exact h.join.cleaned eq

end Life

end EventHub.Kernel
