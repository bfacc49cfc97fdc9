import EventHub.Kernel.Invariant

/-! The steps of a wait keep the invariant. -/

namespace EventHub.Kernel
open Library Event

variable {T O P W C A : Type}
  {sys : System T O W C A} {s s' : Eh T O P W C A} {p : Point T P C A}

section Move
variable [DecidableEq T]

theorem Invariant.of_event (h : Invariant sys s) (event : EventOk sys s')
    (point : s'.point = Function.update s.point s.self p)
    (self : s'.self = s.self) (alive : s'.alive = s.alive)
    (forth : ∀ l, Holds s.sched (s.alive · = true) l → Holds s'.sched (s.alive · = true) l)
    (others : ∀ u, u ≠ s.self → s'.sched.state u = s.sched.state u)
    (admits : p.admits true (s'.sched.state s.self))
    (poll : ∀ l, Holds s'.sched (s.alive · = true) l → PollOk l (s.point s.self) → PollOk l p)
    (joins : ∀ u, p.joins = some u → s.alive u = true)
    (target : ∀ u, p.target = some u →
      s.alive u = true ∧ s.sched.state u = .finish ∧ u ≠ s.self)
    (cleaned : ∀ u r, p.cleaned = some u → r ∉ s'.events.receptors (.task u)) :
    Invariant sys s' := by
  have at_ : s'.point s'.self = p := by rw [self, point, Function.update_self]
  refine ⟨h.sched.moves forth self alive point others admits poll, event, ?_, ?_, ?_⟩
  · intro u eq
    rw [at_] at eq
    rw [alive]
    exact joins u eq
  · intro u eq
    rw [at_] at eq
    obtain ⟨live, finish, ne⟩ := target u eq
    rw [alive, others u ne, self]
    exact ⟨live, finish, ne⟩
  · intro u r eq
    rw [at_] at eq
    exact cleaned u r eq

theorem Invariant.moves (h : Invariant sys s) (mv : Moves sys s s' p)
    (links : s'.sched.links = s.sched.links) (task : s'.sched.task = s.sched.task)
    (self : s'.self = s.self) (admits : p.admits true (s.sched.state s.self))
    (poll : ∀ l, Holds s.sched (s.alive · = true) l → PollOk l (s.point s.self) → PollOk l p)
    (joins : ∀ u, p.joins = some u → s.alive u = true)
    (target : ∀ u, p.target = some u →
      s.alive u = true ∧ s.sched.state u = .finish ∧ u ≠ s.self)
    (cleaned : ∀ u r, p.cleaned = some u → r ∉ s.events.receptors (.task u)) :
    Invariant sys s' := by
  have state : ∀ u, s'.sched.state u = s.sched.state u := fun u => by
    rw [Sched.state, Sched.state, task]
  refine h.of_event (h.event.moves mv fun u waits => (state u) ▸ waits) mv.point self mv.alive
    (fun l holds => holds.congr links task self) (fun u _ => state u) ?_ ?_ joins target ?_
  · rw [state]
    exact admits
  · exact fun l holds => poll l (holds.congr links.symm task.symm self.symm)
  · rw [mv.events]
    exact cleaned

theorem Invariant.leaves (h : Invariant sys s) (mv : s'.point = Function.update s.point s.self p)
    (same : s' = { s with point := s'.point }) (admits : p.admits true (s.sched.state s.self))
    (waits : (s.point s.self).waits = none) (timing : (s.point s.self).timing = false)
    (news : ∀ w, p.waits = some w → w.event sys = none) (poll : ∀ l, PollOk l p)
    (joins : ∀ u, p.joins = some u → s.alive u = true)
    (target : ∀ u, p.target = some u →
      s.alive u = true ∧ s.sched.state u = .finish ∧ u ≠ s.self)
    (cleaned : ∀ u r, p.cleaned = some u → r ∉ s.events.receptors (.task u)) :
    Invariant sys s' := by
  rw [same] at mv ⊢
  refine h.moves ⟨rfl, rfl, rfl, rfl, mv, ?_, ?_, ?_⟩ rfl rfl rfl admits
    (fun l _ _ => poll l) joins target cleaned
  · simp [waits]
  · intro w e eq event
    rw [news w eq] at event
    cases event
  · simp [timing]

structure Point.Idle (p : Point T P C A) : Prop where
  waits : p.waits = none
  poll : ∀ l, PollOk l p
  joins : p.joins = none
  target : p.target = none
  cleaned : p.cleaned = none

theorem Invariant.setIdle (h : Invariant sys s) (admits : p.admits true (s.sched.state s.self))
    (waits : (s.point s.self).waits = none) (timing : (s.point s.self).timing = false)
    (idle : p.Idle) : Invariant sys (s.setPoint s.self p) := by
  apply h.leaves rfl rfl admits waits timing
  · simp [idle.waits]
  · exact idle.poll
  · simp [idle.joins]
  · simp [idle.target]
  · simp [idle.cleaned]

theorem Invariant.setAfter (h : Invariant sys s) (admits : p.admits true (s.sched.state s.self))
    (waits : p.waits = (s.point s.self).waits) (timing : p.timing = (s.point s.self).timing)
    (poll : ∀ l, Holds s.sched (s.alive · = true) l → PollOk l (s.point s.self) → PollOk l p)
    (joins : p.joins = none) (target : p.target = none)
    (cleaned : p.cleaned = none) : Invariant sys (s.setPoint s.self p) := by
  have mv : Moves sys s (s.setPoint s.self p) p := by
    refine ⟨rfl, rfl, rfl, rfl, rfl, ?_, ?_, ?_⟩
    · simp [waits]
    · exact fun eq _ => waits ▸ eq
    · simp [timing]
  apply h.moves mv rfl rfl rfl admits poll
  · simp [joins]
  · simp [target]
  · simp [cleaned]

end Move

theorem Invariant.world (h : Invariant sys s) (world : W) (calls : List A) :
    Invariant sys { s with world := world, calls := calls } :=
  ⟨⟨h.sched.lists, h.sched.parked, h.sched.state, h.sched.selfState⟩,
    ⟨fun t => ⟨(h.event.task t).wait, (h.event.task t).timer, (h.event.task t).listed,
      (h.event.task t).error, (h.event.task t).waiting, (h.event.task t).wakeupTask,
      (h.event.task t).clear⟩,
      h.event.nodup, h.event.epoll, h.event.event⟩,
    ⟨h.join.joins, h.join.target, h.join.cleaned⟩⟩

theorem Invariant.calm (h : Invariant sys s) (at_ : s.point s.self = p)
    (awake : ¬p.admits true .wait) : s.sched.state s.self ≠ .wait := by
  intro waits
  have admits := h.sched.selfState
  rw [at_, waits] at admits
  exact awake admits

/-! The start of a wait. -/

theorem Invariant.runs (h : Invariant sys s) (user : s.point s.self = .user) :
    s.sched.state s.self = .runing := by
  have := h.sched.selfState
  rw [user] at this
  exact this

section Enter
variable [DecidableEq T] {w : Wait T P C}

theorem Invariant.startWait (h : Invariant sys s) (user : s.point s.self = .user)
    (join : ∀ u, w.joined = some u → s.alive u = true) : Invariant sys (s.startWait w) := by
  have runs := h.runs user
  have waits : (s.point s.self).waits = none := by rw [user]; rfl
  have timing : (s.point s.self).timing = false := by rw [user]; rfl
  rw [Eh.startWait]
  split
  · apply h.leaves (p := .waitAdd w) rfl rfl runs waits timing
    · simp [Point.waits]
    · exact fun l => trivial
    · exact join
    · simp [Point.target]
    · simp [Point.cleaned]
  · split
    · apply h.setIdle (p := .returned w ehRetTimeout) runs waits timing
      exact ⟨rfl, fun l => trivial, rfl, rfl, rfl⟩
    · next ne _ =>
      apply h.leaves (p := .waitTimer w) rfl rfl ⟨runs, by simpa [Wait.timed] using ne⟩ waits
        timing
      · simp [Point.waits]
      · exact fun l => trivial
      · exact join
      · simp [Point.target]
      · simp [Point.cleaned]

variable [DecidableEq P]

theorem Invariant.park (h : Invariant sys s) (at_ : s.point s.self = .waitLoop w)
    (quiet : ∀ e, w.event sys = some e → (s.events.flags (.wait s.self)).error = false) :
    Invariant sys (s.park w) := by
  have own := h.event.task s.self
  have point : (s.park w).point = Function.update s.point s.self (.next (.wait w)) := rfl
  have self_point : (s.park w).point s.self = .next (.wait w) := by simp [point]
  have receptors : (s.park w).events.receptors = s.events.receptors := by
    obtain ⟨caller, timeout⟩ := w
    cases caller <;> rfl
  have flags : (s.park w).events.flags = s.events.flags := by
    obtain ⟨caller, timeout⟩ := w
    cases caller <;> rfl
  have sleeps : ∀ q u, ((s.park w).events.epoll q).wakeupTask = some u →
      (s.events.epoll q).wakeupTask = some u ∨ u = s.self ∧ ∃ n, w.caller = .epoll q n := by
    intro q u eq
    obtain ⟨caller, timeout⟩ := w
    cases caller with
    | join v => exact .inl eq
    | object c => exact .inl eq
    | epoll r n =>
      by_cases same : q = r
      · subst same
        right
        simp [Eh.park, Eh.setPoint, Events.setEpoll] at eq
        exact ⟨eq.symm, n, rfl⟩
      · left
        simpa [Eh.park, Eh.setPoint, Events.setEpoll, same] using eq
  have reached : ∀ u, (s.park w).reached u = if u = s.self then false else s.reached u := by
    intro u
    simp [Eh.park, Eh.setPoint, Function.update_apply]
  have state : ∀ u, (s.park w).sched.state u = if u = s.self then .wait else s.sched.state u := by
    intro u
    simp [Eh.park, Eh.setPoint]
  have ap : Apart s.self s (s.park w) := by
    refine ⟨rfl, rfl, ?_, ?_, ?_, ?_, ?_, ?_, ?_, ?_⟩
    · intro u ne
      rw [point, Function.update_of_ne ne]
    · intro u ne waits
      rw [state, if_neg ne] at waits
      exact waits
    · intro u ne
      rw [reached, if_neg ne]
    · intro u e ne
      rw [receptors]
    · intro u e ne mem
      rwa [receptors] at mem
    · intro e q x mem
      rwa [receptors] at mem
    · intro u ne
      rw [flags]
    · intro u q ne eq
      exact (sleeps q u eq).resolve_right fun both => ne both.1
  refine h.of_event (h.event.apart ap ?_ ?_ ?_) point rfl rfl
    (fun l holds => holds.setState_current .wait) ?_ ?_ (fun l _ _ => trivial)
    (by simp [Point.joins]) (by simp [Point.target]) (by simp [Point.cleaned])
  · refine ⟨?_, ?_, ?_, ?_, ?_, ?_, ?_⟩
    · intro e mem
      rw [receptors] at mem
      rw [self_point]
      have := own.wait mem
      rw [at_] at this
      exact this
    · intro e mem
      rw [receptors] at mem
      rw [self_point]
      have := own.timer mem
      rw [at_] at this
      exact this
    · intro v e live eq event
      rw [self_point] at eq
      rw [receptors, flags]
      exact own.listed live (by rw [at_]; exact eq) event
    · intro v e live eq event err
      rw [self_point] at eq
      cases eq
      rw [flags, quiet e event] at err
      cases err
    · intro _ _
      rw [reached, if_pos rfl]
    · intro q eq
      rw [self_point]
      refine ⟨h.sched.live, ?_⟩
      rcases sleeps q _ eq with old | ⟨-, n, caller⟩
      · have := (own.wakeupTask old).2
        rw [at_] at this
        exact this
      · exact ⟨w, n, rfl, caller⟩
    · intro e mem
      rw [receptors] at mem
      rw [flags]
      exact own.clear mem
  · rw [receptors]
    exact h.event.nodup
  · intro u mem
    rw [receptors] at mem
    exact h.event.event mem
  · intro u ne
    rw [state, if_neg ne]
  · rw [state, if_pos rfl]
    exact .inl rfl

variable [DecidableEq O]

theorem Invariant.enter (h : Invariant sys s) (user : s.point s.self = .user)
    (join : ∀ u, w.joined = some u → s.alive u = true) : Invariant sys (s.enter sys w) := by
  have runs := h.runs user
  have waits : (s.point s.self).waits = none := by rw [user]; rfl
  have timing : (s.point s.self).timing = false := by rw [user]; rfl
  -- the wait behind its first test, and a test that is met at once
  have start : ∀ world, Invariant sys ({ s with world := world }.startWait w) := fun world =>
    (h.world world s.calls).startWait user join
  have met : ∀ world, (∀ u, w.joined = some u → s.sched.state u = .finish) →
      Invariant sys ({ s with world := world }.setPoint s.self (.returned w ehRetOk)) := by
    intro world finished
    apply (h.world world s.calls).leaves (p := .returned w ehRetOk) rfl rfl runs waits timing
    · simp [Point.waits]
    · exact fun l => trivial
    · simp [Point.joins]
    · intro u eq
      have joined : w.joined = some u := eq
      refine ⟨join u joined, finished u joined, ?_⟩
      rintro rfl
      have := finished _ joined
      rw [runs] at this
      cases this
    · simp [Point.cleaned]
  obtain ⟨caller, timeout⟩ := w
  rw [Eh.enter]
  cases caller with
  | join u =>
    dsimp only [Eh.condition]
    by_cases finished : s.sched.state u = .finish
    · simp only [finished, decide_true]
      exact met s.world fun v eq => by cases eq; exact finished
    · simp only [finished, decide_false]
      exact start s.world
  | object c =>
    dsimp only [Eh.condition]
    cases sys.condition c with
    | none => exact h.startWait user join
    | some f =>
      dsimp only [Option.map_some]
      cases f s.self s.world with
      | mk b world =>
        cases b
        · exact start world
        · exact met world fun v eq => by cases eq
  | epoll q n =>
    dsimp only
    split
    · apply h.leaves (p := .waitLoop _) rfl rfl runs waits timing
      · intro w eq
        cases eq
        rfl
      · exact fun l => trivial
      · simp [Point.joins]
      · simp [Point.target]
      · simp [Point.cleaned]
    · split
      · next ne _ =>
        apply h.leaves (p := .waitTimer _) rfl rfl ⟨runs, by simpa [Wait.timed] using ne⟩ waits
          timing
        · simp [Point.waits]
        · exact fun l => trivial
        · intro u eq
          cases eq
        · simp [Point.target]
        · simp [Point.cleaned]
      · have read := h.stirred (read_stirred s q n)
        apply read.leaves (p := .returned _ _) rfl rfl runs waits timing
        · simp [Point.waits]
        · exact fun l => trivial
        · simp [Point.joins]
        · intro u eq
          simp only [Point.target, Wait.joined] at eq
          split at eq <;> cases eq
        · simp [Point.cleaned]

theorem Invariant.startTimer (h : Invariant sys s) (at_ : s.point s.self = .waitTimer w) :
    Invariant sys (s.startTimer w) := by
  have admits := h.sched.selfState
  have joins := fun u => h.join.joins (u := u)
  rw [at_] at admits joins
  obtain ⟨runs, timed⟩ := admits
  have noWait := h.event.not_wait (t := s.self) (by rw [at_]; rfl)
  have noTimer := h.event.not_timer (t := s.self) (by rw [at_]; rfl)
  have noSleep : ∀ q, (s.events.epoll q).wakeupTask ≠ some s.self := by
    intro q eq
    obtain ⟨-, v, n, waits, -⟩ := (h.event.task s.self).wakeupTask eq
    rw [at_] at waits
    cases waits
  obtain ⟨p, point, ⟨admits, poll, joined, target, cleaned⟩, waits, timing⟩ :
      ∃ p : Point T P C A, (s.startTimer w).point = Function.update s.point s.self p ∧
      (p.admits true .runing ∧ (∀ l, PollOk l p) ∧ (∀ u, p.joins = some u → w.joined = some u) ∧
        p.target = none ∧ p.cleaned = none) ∧
      (∀ v, p.waits = some v → v.event sys = none) ∧ p.timing = true := by
    cases caller : w.caller with
    | epoll q n =>
      refine ⟨.waitLoop w, by simp [Eh.startTimer, Eh.setPoint, caller],
        ⟨rfl, fun l => trivial, fun u eq => (by cases eq), rfl, rfl⟩, ?_, timed⟩
      intro v eq
      cases eq
      rw [Wait.event, caller]
    | join u =>
      exact ⟨.waitAdd w, by simp [Eh.startTimer, Eh.setPoint, caller],
        ⟨rfl, fun l => trivial, fun u eq => eq, rfl, rfl⟩, fun v eq => (by cases eq), timed⟩
    | object c =>
      exact ⟨.waitAdd w, by simp [Eh.startTimer, Eh.setPoint, caller],
        ⟨rfl, fun l => trivial, fun u eq => eq, rfl, rfl⟩, fun v eq => (by cases eq), timed⟩
  have self_point : (s.startTimer w).point s.self = p := by rw [point, Function.update_self]
  have receptors : ∀ e, (s.startTimer w).events.receptors e =
      if e = .timer s.self then [.timer s.self] else s.events.receptors e := by
    intro e
    by_cases eq : e = .timer s.self <;> simp [Eh.startTimer, Eh.setPoint, eq]
  have flags : ∀ u, (s.startTimer w).events.flags (.wait u) = s.events.flags (.wait u) := by
    intro u
    simp [Eh.startTimer, Eh.setPoint]
  have noWaits : ∀ u, .wait u ∉ s.events.receptors (.timer s.self) := by
    intro u mem
    obtain ⟨-, v, -, event⟩ := (h.event.task u).wait mem
    exact v.event_ne_timer s.self event
  have ap : Apart s.self s (s.startTimer w) := by
    refine ⟨rfl, rfl, ?_, fun _ waits => waits, fun _ => rfl, ?_, ?_, ?_, ?_, fun _ eq => eq⟩
    · intro u ne
      rw [point, Function.update_of_ne ne]
    · intro u e ne
      rw [receptors]
      split
      · next eq => simpa [eq] using noWaits u
      · exact .rfl
    · intro u e ne mem
      rw [receptors] at mem
      split at mem
      · cases List.mem_singleton.mp mem
        exact absurd rfl ne
      · exact mem
    · intro e q x mem
      rw [receptors] at mem
      split at mem
      · cases List.mem_singleton.mp mem
      · exact mem
    · intro u ne
      rw [flags]
  have noWait' : ∀ e, .wait s.self ∉ (s.startTimer w).events.receptors e := by
    intro e
    rw [receptors]
    split
    · simp
    · exact noWait e
  refine h.of_event (h.event.apart ap ?_ ?_ fun mem => absurd mem (noWait' _)) point rfl rfl
    (fun l holds => holds) (fun u _ => rfl) (runs ▸ admits) (fun l _ _ => poll l)
    (fun u eq => joins u (joined u eq)) (by simp [target]) (by simp [cleaned])
  · refine ⟨fun mem => absurd mem (noWait' _), ?_, ?_, ?_, ?_,
      fun eq => absurd eq (noSleep _), fun mem => absurd mem (noWait' _)⟩
    · intro e mem
      rw [receptors] at mem
      split at mem
      · next eq => exact ⟨h.sched.live, by rw [self_point, timing], eq⟩
      · exact absurd mem (noTimer e)
    · intro v e live eq event
      rw [self_point] at eq
      rw [waits v eq] at event
      cases event
    · intro v e live eq event
      rw [self_point] at eq
      rw [waits v eq] at event
      cases event
    · intro live waits
      have := runs.symm.trans waits
      cases this
  · intro e
    rw [receptors]
    split
    · simp
    · exact h.event.nodup e

theorem Invariant.linkReceptor (h : Invariant sys s) (at_ : s.point s.self = .waitAdd w) :
    Invariant sys (s.linkReceptor sys w) := by
  have runs := h.sched.selfState
  have joins := fun u => h.join.joins (u := u)
  rw [at_] at runs joins
  have noWait := h.event.not_wait (t := s.self) (by rw [at_]; rfl)
  have noSleep : ∀ q, (s.events.epoll q).wakeupTask ≠ some s.self := by
    intro q eq
    obtain ⟨-, v, n, waits, -⟩ := (h.event.task s.self).wakeupTask eq
    rw [at_] at waits
    cases waits
  rw [Eh.linkReceptor]
  split
  · next e event =>
    have receptors : ∀ x, ((s.events.setFlags (.wait s.self) .clear).addReceptor e
        (.wait s.self)).receptors x =
          if x = e then s.events.receptors e ++ [.wait s.self] else s.events.receptors x := by
      intro x
      by_cases eq : x = e
      · subst eq
        simp [Events.addReceptor, Events.setFlags]
      · simp [Events.addReceptor, Events.setFlags, eq]
    have mem_iff : ∀ {x r}, r ∈ ((s.events.setFlags (.wait s.self) .clear).addReceptor e
        (.wait s.self)).receptors x ↔
          r ∈ s.events.receptors x ∨ x = e ∧ r = .wait s.self := by
      intro x r
      rw [receptors]
      by_cases eq : x = e <;> simp [eq]
    have ap : Apart s.self s ({ s with
        events := (s.events.setFlags (.wait s.self) .clear).addReceptor e
          (.wait s.self) }.setPoint s.self (.waitLoop w)) := by
      refine ⟨rfl, rfl, ?_, fun _ waits => waits, fun _ => rfl, ?_, ?_, ?_, ?_, fun _ eq => eq⟩
      · intro u ne
        simp [Eh.setPoint, ne]
      · intro u x ne
        exact mem_iff.trans (by simp [ne])
      · intro u x ne mem
        simpa using mem_iff.mp mem
      · intro x q y mem
        simpa using mem_iff.mp mem
      · intro u ne
        simp [Eh.setPoint, Events.addReceptor, Events.setFlags, ne]
    have self_point : ({ s with
        events := (s.events.setFlags (.wait s.self) .clear).addReceptor e
          (.wait s.self) }.setPoint s.self (.waitLoop w)).point s.self = .waitLoop w := by
      simp [Eh.setPoint]
    refine h.of_event (h.event.apart ap ?_ ?_ ?_) rfl rfl rfl (fun l holds => holds)
      (fun u _ => rfl) (p := .waitLoop w) runs (fun l _ _ => trivial) (by simp [Point.joins])
      (by simp [Point.target]) (by simp [Point.cleaned])
    · refine ⟨?_, ?_, ?_, ?_, ?_, fun eq => absurd eq (noSleep _), ?_⟩
      · intro x mem
        refine ⟨h.sched.live, w, by rw [self_point]; rfl, ?_⟩
        rcases mem_iff.mp mem with old | ⟨rfl, -⟩
        · exact absurd old (noWait x)
        · exact event
      · intro x mem
        have old := (h.event.task s.self).timer (by simpa using mem_iff.mp mem)
        rw [at_] at old
        rw [self_point]
        exact old
      · intro v x live eq eventV
        left
        rw [self_point] at eq
        cases eq
        rw [event] at eventV
        cases eventV
        exact mem_iff.mpr (.inr ⟨rfl, rfl⟩)
      · intro v x live eq eventV err
        simp [Eh.setPoint, Events.addReceptor, Events.setFlags, Flags.clear] at err
      · intro live waits
        have := runs.symm.trans waits
        cases this
      · intro x _
        simp [Eh.setPoint, Events.addReceptor, Events.setFlags, Flags.clear]
    · intro x
      refine (congrArg List.Nodup (receptors x)).mpr ?_
      split
      · rw [List.nodup_append]
        refine ⟨h.event.nodup e, by simp, ?_⟩
        intro r mem q memQ
        rintro rfl
        rw [List.mem_singleton.mp memQ] at mem
        exact noWait e mem
      · exact h.event.nodup x
    · intro u mem
      rcases mem_iff.mp mem with old | ⟨eq, -⟩
      · exact absurd old (noWait _)
      · subst eq
        apply joins u
        obtain ⟨caller, timeout⟩ := w
        cases caller <;> simp_all [Wait.event, Point.joins, Wait.joined]
  · next event =>
    have mv : Moves sys s (s.setPoint s.self (.waitLoop w)) (.waitLoop w) := by
      refine ⟨rfl, rfl, rfl, rfl, rfl, ?_, ?_, ?_⟩
      · simp [at_, Point.waits]
      · intro v e eq eventV
        cases eq
        rw [event] at eventV
        cases eventV
      · rw [at_]
        exact fun timing => timing
    exact h.moves mv rfl rfl rfl runs (fun l _ _ => trivial) (by simp [Point.joins])
      (by simp [Point.target]) (by simp [Point.cleaned])

/-! One pass of the loop. -/

theorem check_stirred (sys : System T O W C A) (s : Eh T O P W C A) (w : Wait T P C) :
    Stirred s (s.check sys w).2 := by
  obtain ⟨caller, timeout⟩ := w
  have still : ∀ world, Stirred s { s with world := world } := fun world =>
    { Stirred.refl s with }
  rw [Eh.check]
  cases caller with
  | epoll q n =>
    dsimp only
    split
    · exact read_stirred s q n
    · exact read_stirred s q n
  | join u =>
    dsimp only [Eh.condition]
    split
    · exact .refl s
    · split <;> exact still _
  | object c =>
    dsimp only
    split
    · split
      · exact .refl s
      · split <;> exact still _
    · split <;> exact .refl s

theorem check_none {e : EhEvent T O} (event : w.event sys = some e)
    (goes : (s.check sys w).1 = none) :
    ((s.check sys w).2.events.flags (.wait s.self)).error = false := by
  obtain ⟨caller, timeout⟩ := w
  rw [Eh.check] at goes ⊢
  cases caller with
  | epoll q n => cases event
  | join u =>
    dsimp only [Eh.condition] at goes ⊢
    split at goes
    · cases goes
    · next quiet =>
      rw [if_neg quiet]
      split <;> simpa using quiet
  | object c =>
    dsimp only at goes ⊢
    split at goes
    · split at goes
      · cases goes
      · next quiet =>
        rw [if_neg quiet]
        split <;> simpa using quiet
    · split at goes
      · cases goes
      · next quiet =>
        rw [if_neg quiet]
        simp only [Flags.any, Bool.or_eq_true, not_or, Bool.not_eq_true] at quiet
        exact quiet.2

theorem check_join {u : T} {ret : Int} (joined : w.joined = some u)
    (leaves : (s.check sys w).1 = some ret) (ok : 0 ≤ ret) :
    (s.check sys w).2.sched.state u = .finish ∧
      ((s.check sys w).2.events.flags (.wait s.self)).error = false := by
  obtain ⟨caller, timeout⟩ := w
  cases caller with
  | epoll q n => cases joined
  | object c => cases joined
  | join v =>
    cases joined
    rw [Eh.check] at leaves ⊢
    dsimp only [Eh.condition] at leaves ⊢
    split at leaves
    · cases leaves
      exact absurd ok (by decide)
    · next quiet =>
      rw [if_neg quiet]
      split at leaves
      · next met =>
        rw [if_pos met]
        exact ⟨by simpa using met, by simpa using quiet⟩
      · exfalso
        rw [Eh.checkTimer] at leaves
        dsimp only at leaves
        split at leaves
        · split at leaves <;> cases leaves <;> exact absurd ok (by decide)
        · cases leaves

theorem Invariant.leaveWait (h : Invariant sys s) (at_ : s.point s.self = .waitLoop w)
    {ret : Int} (join : ∀ u, w.joined = some u → 0 ≤ ret →
      s.sched.state u = .finish ∧ (s.events.flags (.wait s.self)).error = false) :
    Invariant sys (s.leaveWait sys w ret) := by
  have own := h.event.task s.self
  have runs := h.sched.selfState
  rw [at_] at runs
  obtain ⟨p, point, admits, poll, waits, joins, target, cleaned, timing⟩ :
      ∃ p : Point T P C A, (s.leaveWait sys w ret).point = Function.update s.point s.self p ∧
      p.admits true .runing ∧ (∀ l, PollOk l p) ∧ p.waits = none ∧ p.joins = none ∧
      (∀ u, p.target = some u → w.joined = some u ∧ 0 ≤ ret) ∧ p.cleaned = none ∧
      (w.timed = true → p.timing = true) := by
    cases timed : w.timed with
    | true =>
      refine ⟨.waitEnd w ret, by simp [Eh.leaveWait, Eh.setPoint, timed], rfl, fun l => trivial,
        rfl, rfl, ?_, rfl, fun _ => rfl⟩
      intro u eq
      rw [Point.target] at eq
      split at eq
      · next ok => exact ⟨eq, ok⟩
      · cases eq
    | false =>
      refine ⟨.returned w ret, by simp [Eh.leaveWait, Eh.setPoint, timed], rfl, fun l => trivial,
        rfl, rfl, ?_, rfl, fun eq => by cases eq⟩
      intro u eq
      rw [Point.target] at eq
      split at eq
      · next ok => exact ⟨eq, ok⟩
      · cases eq
  have self_point : (s.leaveWait sys w ret).point s.self = p := by
    rw [point, Function.update_self]
  have receptors : ∀ e, (s.leaveWait sys w ret).events.receptors e =
      if w.event sys = some e then (s.events.receptors e).erase (.wait s.self)
      else s.events.receptors e := by
    intro e
    obtain ⟨caller, timeout⟩ := w
    cases caller with
    | epoll q n => rfl
    | join u =>
      by_cases eq : e = .task u
      · subst eq
        simp [Eh.leaveWait, Eh.setPoint, Wait.event, Events.removeReceptor]
      · simp [Eh.leaveWait, Eh.setPoint, Wait.event, Events.removeReceptor, eq, Ne.symm eq]
    | object c =>
      by_cases eq : e = .object (sys.event c)
      · subst eq
        simp [Eh.leaveWait, Eh.setPoint, Wait.event, Events.removeReceptor]
      · simp [Eh.leaveWait, Eh.setPoint, Wait.event, Events.removeReceptor, eq, Ne.symm eq]
  have flags : (s.leaveWait sys w ret).events.flags = s.events.flags := by
    obtain ⟨caller, timeout⟩ := w
    cases caller <;> rfl
  have sleeps : ∀ q u, ((s.leaveWait sys w ret).events.epoll q).wakeupTask = some u →
      (s.events.epoll q).wakeupTask = some u ∧ ∀ n, w.caller ≠ .epoll q n := by
    intro q u eq
    obtain ⟨caller, timeout⟩ := w
    cases caller with
    | join v => exact ⟨eq, by simp⟩
    | object c => exact ⟨eq, by simp⟩
    | epoll r n =>
      by_cases same : q = r
      · subst same
        simp [Eh.leaveWait, Eh.setPoint, Events.setEpoll] at eq
      · refine ⟨by simpa [Eh.leaveWait, Eh.setPoint, Events.setEpoll, same] using eq, ?_⟩
        intro m eqC
        cases eqC
        exact same rfl
  have reached : ∀ u, (s.leaveWait sys w ret).reached u =
      if u = s.self then false else s.reached u := by
    intro u
    simp [Eh.leaveWait, Eh.setPoint, Function.update_apply]
  have sub : ∀ {e r}, r ∈ (s.leaveWait sys w ret).events.receptors e →
      r ∈ s.events.receptors e := by
    intro e r mem
    rw [receptors] at mem
    split at mem
    · exact List.mem_of_mem_erase mem
    · exact mem
  have noWait : ∀ e, .wait s.self ∉ (s.leaveWait sys w ret).events.receptors e := by
    intro e mem
    obtain ⟨-, v, eq, event⟩ := own.wait (sub mem)
    rw [at_] at eq
    cases eq
    rw [receptors, if_pos event, (h.event.nodup e).mem_erase_iff] at mem
    exact mem.1 rfl
  have ap : Apart s.self s (s.leaveWait sys w ret) := by
    refine ⟨rfl, rfl, ?_, fun _ waits => waits, ?_, ?_, fun _ mem => sub mem, sub, ?_, ?_⟩
    · intro u ne
      rw [point, Function.update_of_ne ne]
    · intro u ne
      rw [reached, if_neg ne]
    · intro u e ne
      rw [receptors]
      split
      · exact List.mem_erase_of_ne (by simpa using ne)
      · exact .rfl
    · intro u ne
      rw [flags]
    · exact fun _ eq => (sleeps _ _ eq).1
  refine h.of_event (h.event.apart ap ?_ ?_ fun mem => absurd mem (noWait _)) point rfl rfl
    (fun l holds => holds) (fun u _ => rfl) ?_ (fun l _ _ => poll l) (by simp [joins]) ?_
    (by simp [cleaned])
  · refine ⟨fun mem => absurd mem (noWait _), ?_, ?_, ?_, ?_, ?_,
      fun mem => absurd mem (noWait _)⟩
    · intro e mem
      obtain ⟨live, timed, eq⟩ := own.timer (sub mem)
      rw [at_] at timed
      exact ⟨live, by rw [self_point]; exact timing timed, eq⟩
    · intro v e live eq event
      rw [self_point, waits] at eq
      cases eq
    · intro v e live eq event
      rw [self_point, waits] at eq
      cases eq
    · intro live stopped
      have := runs.symm.trans stopped
      cases this
    · intro q eq
      obtain ⟨old, other⟩ := sleeps q _ eq
      obtain ⟨-, v, n, waitsV, caller⟩ := own.wakeupTask old
      rw [at_] at waitsV
      cases waitsV
      exact absurd caller (other n)
  · intro e
    rw [receptors]
    split
    · exact (h.event.nodup e).erase _
    · exact h.event.nodup e
  · exact (show s.sched.state s.self = .runing from runs) ▸ admits
  · intro u eq
    obtain ⟨joined, ok⟩ := target u eq
    obtain ⟨finish, quiet⟩ := join u joined ok
    have event : w.event sys = some (.task u) := by
      obtain ⟨caller, timeout⟩ := w
      cases caller <;> cases joined
      rfl
    have linked := (own.listed h.sched.live (by rw [at_]; rfl) event).resolve_right (by simp [quiet])
    refine ⟨h.event.event linked, finish, ?_⟩
    rintro rfl
    have := runs.symm.trans finish
    cases this

theorem Invariant.loopWait (h : Invariant sys s) (at_ : s.point s.self = .waitLoop w) :
    Invariant sys (s.loopWait sys w) := by
  have stirred := check_stirred sys s w
  have checked := h.stirred stirred
  have self := stirred.currentTask
  have at' : (s.check sys w).2.point (s.check sys w).2.self = .waitLoop w := by
    rw [stirred.point, self, at_]
  rw [Eh.loopWait]
  cases eq : s.check sys w with
  | mk result s' =>
    rw [eq] at checked self at'
    dsimp only at checked self at' ⊢
    cases result with
    | some ret =>
      refine checked.leaveWait at' fun u joined ok => ?_
      have left : (s.check sys w).1 = some ret := by rw [eq]
      have met := check_join joined left ok
      rw [eq] at met
      rw [self]
      exact met
    | none =>
      refine checked.park at' fun e event => ?_
      have quiet := check_none (s := s) event (by rw [eq])
      rw [eq] at quiet
      rw [self]
      exact quiet

theorem Invariant.endWait (h : Invariant sys s) {ret : Int}
    (at_ : s.point s.self = .waitEnd w ret) : Invariant sys (s.endWait w ret) := by
  have own := h.event.task s.self
  have runs := h.sched.selfState
  have target := fun u => h.join.target (u := u)
  rw [at_] at runs target
  have noWait := h.event.not_wait (t := s.self) (by rw [at_]; rfl)
  have self_point : (s.endWait w ret).point s.self = .returned w ret := by
    simp [Eh.endWait, Eh.setPoint]
  have receptors : ∀ e, (s.endWait w ret).events.receptors e =
      if e = .timer s.self then (s.events.receptors e).erase (.timer s.self)
      else s.events.receptors e := by
    intro e
    by_cases eq : e = .timer s.self
    · subst eq
      simp [Eh.endWait, Eh.setPoint, Events.removeReceptor]
    · simp [Eh.endWait, Eh.setPoint, Events.removeReceptor, eq]
  have sub : ∀ {e r}, r ∈ (s.endWait w ret).events.receptors e → r ∈ s.events.receptors e := by
    intro e r mem
    rw [receptors] at mem
    split at mem
    · exact List.mem_of_mem_erase mem
    · exact mem
  have ap : Apart s.self s (s.endWait w ret) := by
    refine ⟨rfl, rfl, ?_, fun _ waits => waits, fun _ => rfl, ?_, fun _ mem => sub mem, sub,
      fun _ => rfl, fun _ eq => eq⟩
    · intro u ne
      simp [Eh.endWait, Eh.setPoint, ne]
    · intro u e ne
      rw [receptors]
      split
      · exact List.mem_erase_of_ne (by simp)
      · exact .rfl
  refine h.of_event (h.event.apart ap ?_ ?_ fun mem => absurd (sub mem) (noWait _)) rfl rfl rfl
    (fun l holds => holds) (fun u _ => rfl) (p := .returned w ret) runs (fun l _ _ => trivial)
    (by simp [Point.joins]) target (by simp [Point.cleaned])
  · refine ⟨fun mem => absurd (sub mem) (noWait _), ?_, ?_, ?_, ?_, ?_,
      fun mem => absurd (sub mem) (noWait _)⟩
    · intro e mem
      have eq := (own.timer (sub mem)).2.2
      rw [receptors, if_pos eq, (h.event.nodup e).mem_erase_iff] at mem
      exact absurd rfl mem.1
    · intro v e live eq event
      rw [self_point] at eq
      cases eq
    · intro v e live eq event
      rw [self_point] at eq
      cases eq
    · intro live stopped
      have := runs.symm.trans stopped
      cases this
    · intro q eq
      obtain ⟨-, v, n, waitsV, -⟩ := own.wakeupTask eq
      rw [at_] at waitsV
      cases waitsV
  · intro e
    rw [receptors]
    split
    · exact (h.event.nodup e).erase _
    · exact h.event.nodup e

theorem Invariant.afterWait (h : Invariant sys s) {ret : Int}
    (at_ : s.point s.self = .returned w ret) : Invariant sys (s.afterWait sys w ret) := by
  have runs := h.sched.selfState
  have target := fun u => h.join.target (u := u)
  rw [at_] at runs target
  have waits : (s.point s.self).waits = none := by rw [at_]; rfl
  have timing : (s.point s.self).timing = false := by rw [at_]; rfl
  have user : (Point.user : Point T P C A).Idle := ⟨rfl, fun l => trivial, rfl, rfl, rfl⟩
  obtain ⟨caller, timeout⟩ := w
  rw [Eh.afterWait]
  cases caller with
  | epoll q n => exact h.setIdle runs waits timing user
  | object c => exact (h.world _ s.calls).setIdle runs waits timing user
  | join u =>
    dsimp only
    split
    · exact h.setIdle runs waits timing user
    · next ok =>
      have stirred := signal_stirred h.event.owned (.clean (.task u))
      have cleaned := h.stirred stirred
      have self := stirred.currentTask
      have at' : (s.signal (.clean (.task u))).point (s.signal (.clean (.task u))).self =
          .returned ⟨.join u, timeout⟩ ret := by
        rw [stirred.point, self, at_]
      have runs' := cleaned.sched.selfState
      rw [at'] at runs'
      rw [← self]
      apply cleaned.leaves (p := .destroying u) rfl rfl runs'
      · rw [at']
        rfl
      · rw [at']
        rfl
      · simp [Point.waits]
      · exact fun l => trivial
      · simp [Point.joins]
      · intro v eq
        cases eq
        apply cleaned.join.target
        rw [at', Point.target, if_pos (not_lt.mp ok)]
        rfl
      · intro v r eq mem
        cases eq
        rw [Eh.signal, Eh.reach] at mem
        rw [Events.ehEventClean_receptors] at mem
        simp at mem

end Enter

end EventHub.Kernel
