import EventHub.Kernel.Scheduling
import EventHub.Kernel.Wakeup

/-! What a step leaves of a task that does not make it, and how a task goes on inside its own
wait. -/

namespace EventHub.Kernel
open Library Event

variable {T O P W C A : Type}

/-- The task stays where it is, and an error that has reached its receptor stays there. -/
structure Aside (t : T) (s s' : Eh T O P W C A) : Prop where
  point : s'.point t = s.point t
  error : (s.events.flags (.wait t)).error = true → (s'.events.flags (.wait t)).error = true

theorem Aside.refl (t : T) (s : Eh T O P W C A) : Aside t s s := ⟨rfl, fun error => error⟩

theorem Aside.trans {t : T} {s s' s'' : Eh T O P W C A} (h : Aside t s s') (h' : Aside t s' s'') :
    Aside t s s'' :=
  ⟨h'.point.trans h.point, fun error => h'.error (h.error error)⟩

theorem poll_after_waits (pp : PollPoint T) (idle : Bool) (k : After T P C) :
    (Point.poll pp idle k : Point T P C A).waits = (Point.resumed k : Point T P C A).waits := by
  cases k <;> rfl

variable [DecidableEq T] {sys : System T O W C A} {s s' : Eh T O P W C A}
  {l : Label T O P C A} {t : T} {w : Wait T P C} {k : After T P C}

theorem Aside.setPoint {p : Point T P C A} {u : T} (h : Aside t s s') (ne : t ≠ u) :
    Aside t s (s'.setPoint u p) :=
  ⟨(Function.update_of_ne ne _ _).trans h.point, h.error⟩

theorem Stirred.aside (st : Stirred s s') (t : T) : Aside t s s' :=
  ⟨congrFun st.point t, st.errorKept⟩

theorem continueAt_aside (step : s.continueAt k = some s') (ne : t ≠ s.self) : Aside t s s' := by
  cases k with
  | finished => cases step
  | _ =>
    cases step
    exact (Aside.refl t s).setPoint ne

theorem autoDestruct_aside (pos : Node T) (idle : Bool) (k : After T P C) (ne : t ≠ s.self) :
    Aside t s (s.autoDestruct pos idle k) := by
  rw [Eh.autoDestruct]
  split
  · have reset : Aside t s { s with sched := { s.sched with autoDestructTask := false } } :=
      ⟨rfl, fun error => error⟩
    exact reset.setPoint ne
  · exact (Aside.refl t s).setPoint ne

theorem startWait_aside (w : Wait T P C) (ne : t ≠ s.self) : Aside t s (s.startWait w) := by
  rw [Eh.startWait]
  split_ifs <;> exact (Aside.refl t s).setPoint ne

variable [DecidableEq O] [DecidableEq P]

theorem enter_aside (sys : System T O W C A) (w : Wait T P C) (ne : t ≠ s.self) :
    Aside t s (s.enter sys w) := by
  have world : ∀ world, Aside t s { s with world := world } := fun _ => ⟨rfl, fun error => error⟩
  have starts : ∀ world, Aside t s ({ s with world := world }.startWait w) := fun world₀ =>
    (world world₀).trans (startWait_aside w ne)
  rw [Eh.enter]
  split
  · split_ifs
    · exact (Aside.refl t s).setPoint ne
    · exact (Aside.refl t s).setPoint ne
    · exact ((read_stirred s _ _).aside t).setPoint ne
  all_goals
    split
    · exact (world _).setPoint ne
    · exact starts _
    · exact startWait_aside w ne

theorem loopWait_aside (sys : System T O W C A) (w : Wait T P C) (ne : t ≠ s.self) :
    Aside t s (s.loopWait sys w) := by
  have checked := check_stirred sys s w
  rw [Eh.loopWait]
  cases result : s.check sys w with
  | mk ret x =>
    rw [result] at checked
    dsimp only at checked ⊢
    have other : t ≠ x.self := by rwa [checked.currentTask]
    cases ret with
    | some ret =>
      refine (checked.aside t).trans (Aside.setPoint ⟨rfl, fun error => ?_⟩ other)
      dsimp only
      split
      · exact error
      · split <;> exact error
      · split <;> exact error
    | none =>
      refine (checked.aside t).trans (Aside.setPoint ⟨rfl, fun error => ?_⟩ other)
      dsimp only
      split <;> exact error

theorem pollStep_aside (inv : Invariant sys s) {pp : PollPoint T} {idle : Bool}
    (step : s.pollStep idle k pp = some s') (ne : t ≠ s.self) : Aside t s s' := by
  cases pp with
  | start =>
    rw [Eh.pollStep] at step
    split at step <;> cases step
    · exact autoDestruct_aside _ idle k ne
    · exact (Aside.refl t s).setPoint ne
  | destroy pos n =>
    cases pos with
    | task u =>
      cases step
      exact ((signal_stirred inv.event.owned _).aside t).setPoint ne
    | _ => cases step
  | unlink pos n =>
    cases pos with
    | task u =>
      cases step
      have destroyed : Aside t s (s.destroy u) := ⟨rfl, fun error => error⟩
      exact destroyed.trans (autoDestruct_aside n idle k ne)
    | _ => cases step

theorem go_aside (inv : Invariant sys s) (step : s.go sys = some s') (ne : t ≠ s.self) :
    Aside t s s' := by
  have signals : ∀ g p, Aside t s ((s.signal g).setPoint s.self p) := fun g p =>
    ((signal_stirred inv.event.owned g).aside t).setPoint ne
  have wait : Receptor.wait t ≠ (.wait s.self : Receptor (EhEvent T O) T P) := by simpa using ne
  rw [Eh.go] at step
  split at step
  · cases step
    exact (Aside.refl t s).setPoint ne
  · cases step
  · cases step
    exact ((perform_stirred sys inv.event.owned _).aside t).setPoint ne
  · cases step
    rw [Eh.startTimer]
    refine Aside.setPoint ⟨rfl, fun error => ?_⟩ ne
    simpa using error
  · cases step
    rw [Eh.linkReceptor]
    split
    · refine Aside.setPoint ⟨rfl, fun error => ?_⟩ ne
      simpa [Events.addReceptor, Events.setFlags, wait] using error
    · exact (Aside.refl t s).setPoint ne
  · cases step
    exact loopWait_aside sys _ ne
  · cases step
    exact Aside.setPoint ⟨rfl, fun error => error⟩ ne
  · cases step
    rw [Eh.afterWait]
    split
    · split
      · exact (Aside.refl t s).setPoint ne
      · exact signals _ _
    · exact Aside.setPoint ⟨rfl, fun error => error⟩ ne
    · exact (Aside.refl t s).setPoint ne
  · cases step
    exact Aside.setPoint ⟨rfl, fun error => error⟩ ne
  · cases step
    exact signals _ _
  · cases step
    rw [Eh.nextStep]
    split
    · exact Aside.setPoint ⟨rfl, fun error => error⟩ ne
    · exact (Aside.refl t s).setPoint ne
  · exact pollStep_aside inv step ne
  · rw [Eh.dispatch] at step
    split at step
    · cases step
      exact Aside.setPoint ⟨rfl, fun error => error⟩ ne
    · split at step
      · cases step
        have moved := (Aside.refl t s).setPoint (p := .resumed ‹_›) ne
        exact ⟨moved.point, moved.error⟩
      · cases step
  · rw [Eh.idleCheck] at step
    split at step
    · have moved := continueAt_aside step ne
      exact ⟨moved.point, moved.error⟩
    · cases step
      exact (Aside.refl t s).setPoint ne
  · have moved := continueAt_aside step ne
    exact ⟨moved.point, moved.error⟩

theorem user_aside (inv : Invariant sys s) (live : s.alive t = true)
    (step : s.user sys l = some s') (ne : t ≠ s.self) : Aside t s s' := by
  cases Eh.user_cases step with
  | wait => exact enter_aside sys _ ne
  | @act a => exact ((perform_stirred sys inv.event.owned a).aside t).setPoint ne
  | @create u system auto dead =>
    have other : t ≠ u := fun eq => by
      rw [← eq, live] at dead
      cases dead
    exact Aside.setPoint ⟨rfl, fun error => error⟩ other
  | yield => exact (Aside.refl t s).setPoint ne
  | ret => exact Aside.setPoint ⟨rfl, fun error => error⟩ ne
  | exitMain => exact (Aside.refl t s).setPoint ne
  | exit =>
    have own : Owned { s with sched := s.sched.setState s.self .finish } :=
      ⟨inv.event.owned.receptor, inv.event.owned.epoll, inv.event.owned.single⟩
    have signal := (signal_stirred own (.notify (.task s.self))).aside t
    exact Aside.setPoint ⟨signal.point, signal.error⟩ ne
  | epollAdd =>
    rw [Eh.ehEpollAddEvent]
    split
    · exact .refl t s
    · refine ⟨rfl, fun error => ?_⟩
      simpa [Events.addReceptor, Events.setFlags] using error
  | epollDel =>
    rw [Eh.ehEpollDelEvent]
    split
    · exact ⟨rfl, fun error => error⟩
    · exact .refl t s

theorem step_aside (inv : Invariant sys s) (live : s.alive t = true)
    (step : s.step sys l = some s') (away : l = .go → t ≠ s.self) (busy : s.point t ≠ .user) :
    Aside t s s' := by
  cases Eh.step_cases step with
  | go step => exact go_aside inv step (away rfl)
  | user at_ step => exact user_aside inv live step fun eq => busy (eq ▸ at_)
  | signal g => exact (signal_stirred inv.event.owned g).aside t
  | wakeUp live => exact (Stirred.of_wakeUp live).aside t
  | expire u => exact (expire_stirred inv.event.owned u).aside t
  | interrupt => exact ⟨congrFun (perform_stirred sys inv.event.owned _).point t,
      (perform_stirred sys inv.event.owned _).errorKept⟩
  | interruptGo => exact ⟨congrFun (perform_stirred sys inv.event.owned _).point t,
      (perform_stirred sys inv.event.owned _).errorKept⟩

theorem step_alive (inv : Invariant sys s) (step : s.step sys l = some s')
    (live : s.alive t = true) (busy : t = s.self ∨ s.sched.state t ≠ .finish) :
    s'.alive t = true := by
  have sched := Eh.scheduling inv step
  generalize s.turns sys l = ms at sched
  cases sched with
  | still n sched alive => rwa [alive]
  | wakes st ts all sched alive => rwa [alive]
  | polled empty sched alive => rwa [alive]
  | releases u b liveU finish ne sched empty alive =>
    have other : t ≠ u := by
      rintro rfl
      exact busy.elim ne fun running => running finish
    rw [alive, Function.update_of_ne other]
    exact live
  | idles none sched alive => rwa [alive]
  | resumes idles sched alive => rwa [alive]
  | stays idles sched alive => rwa [alive]
  | switches calm holds first sched alive => rwa [alive]
  | creates system auto eq dead sched alive =>
    rw [alive, Function.update_apply]
    split
    · rfl
    · exact live

/-! How a task goes on inside its wait. -/

omit [DecidableEq O] [DecidableEq P] in
theorem autoDestruct_waits (x : Eh T O P W C A) (pos : Node T) (idle : Bool) (k : After T P C) :
    ((x.autoDestruct pos idle k).point x.self).waits =
      (Point.resumed k : Point T P C A).waits := by
  have at_ : ∀ (y : Eh T O P W C A) (p : Point T P C A),
      (y.setPoint x.self p).point x.self = p := fun y p => setPoint_point y x.self p
  rw [Eh.autoDestruct]
  split
  · rw [at_]
    exact (pollEnd_waits .start idle k).trans (poll_after_waits _ _ k)
  · rw [at_]
    exact poll_after_waits _ _ k

omit [DecidableEq O] [DecidableEq P] in
theorem continueAt_waits (step : s.continueAt k = some s') :
    (s'.point s.self).waits = (Point.resumed k : Point T P C A).waits ∧ s'.events = s.events := by
  cases k with
  | finished => cases step
  | yield =>
    cases step
    exact ⟨(congrArg Point.waits (setPoint_point s s.self .user)).trans rfl, rfl⟩
  | wait w =>
    cases step
    exact ⟨(congrArg Point.waits (setPoint_point s s.self (.waitLoop w))).trans rfl, rfl⟩

theorem go_waits (inv : Invariant sys s) (step : s.go sys = some s')
    (waits : (s.point s.self).waits = some w) (between : s.point s.self ≠ .waitLoop w) :
    (s'.point s.self).waits = some w ∧ ((s.events.flags (.wait s.self)).error = true →
      (s'.events.flags (.wait s.self)).error = true) := by
  have moves : ∀ (x : Eh T O P W C A) (p : Point T P C A), p.waits = some w →
      ((x.setPoint s.self p).point s.self).waits = some w := fun x p eq =>
    (congrArg Point.waits (setPoint_point x s.self p)).trans eq
  have inWait : ∀ k : After T P C, (Point.resumed k : Point T P C A).waits = some w →
      k = .wait w := by
    intro k eq
    cases k <;> cases eq
    rfl
  rw [Eh.go] at step
  cases at_ : s.point s.self with
  | waitLoop v =>
    rw [at_] at waits between
    cases waits
    exact absurd rfl between
  | next k =>
    rw [at_] at step waits
    obtain rfl := inWait k (by cases k <;> exact waits)
    cases step
    rw [Eh.nextStep]
    split
    · exact ⟨moves _ _ rfl, fun error => error⟩
    · exact ⟨moves _ _ rfl, fun error => error⟩
  | poll pp idle k =>
    rw [at_] at step waits
    obtain rfl := inWait k ((poll_after_waits pp idle k).symm.trans waits)
    cases pp with
    | start =>
      simp only [Eh.pollStep] at step
      split at step <;> cases step
      · refine ⟨(autoDestruct_waits s _ idle _), fun error => ?_⟩
        rw [Eh.autoDestruct]
        split <;> exact error
      · exact ⟨moves _ _ (pollEnd_waits .start idle _), fun error => error⟩
    | destroy pos n =>
      cases pos with
      | task u =>
        cases step
        exact ⟨moves _ _ rfl, (signal_stirred inv.event.owned _).errorKept⟩
      | _ => cases step
    | unlink pos n =>
      cases pos with
      | task u =>
        cases step
        refine ⟨(autoDestruct_waits (s.destroy u) n idle _), fun error => ?_⟩
        rw [Eh.autoDestruct]
        split <;> exact error
      | _ => cases step
  | nextLoop k =>
    rw [at_] at step waits
    obtain rfl := inWait k (by cases k <;> exact waits)
    simp only [Eh.dispatch] at step
    split at step
    · cases step
      exact ⟨moves _ _ rfl, fun error => error⟩
    · split at step
      · cases step
        exact ⟨moves _ _ rfl, fun error => error⟩
      · cases step
  | nextCheck k =>
    rw [at_] at step waits
    obtain rfl := inWait k (by cases k <;> exact waits)
    simp only [Eh.idleCheck] at step
    split at step
    · obtain ⟨same, events⟩ := continueAt_waits step
      exact ⟨same, fun error => by rwa [events]⟩
    · cases step
      exact ⟨moves _ _ rfl, fun error => error⟩
  | resumed k =>
    rw [at_] at step waits
    obtain rfl := inWait k (by cases k <;> exact waits)
    obtain ⟨same, events⟩ := continueAt_waits step
    exact ⟨same, fun error => by rwa [events]⟩
  | _ =>
    rw [at_] at waits
    cases waits

end EventHub.Kernel
