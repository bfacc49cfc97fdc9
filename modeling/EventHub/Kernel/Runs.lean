import EventHub.Kernel.Switches

/-! Every step keeps the invariant, so that it holds in every reachable state. -/

namespace EventHub.Kernel
open Library Event

variable {T O P W C A : Type} {sys : System T O W C A} {s s' : Eh T O P W C A}
  {p : Point T P C A}

theorem user_idle : (Point.user : Point T P C A).Idle :=
  ⟨rfl, fun _ => trivial, rfl, rfl, rfl⟩

theorem Invariant.epollEdit (h : Invariant sys s) {events : Events (EhEvent T O) T P}
    {registered : P → EhEvent T O → Bool}
    (wait : ∀ t e, .wait t ∈ events.receptors e ↔ .wait t ∈ s.events.receptors e)
    (timer : ∀ t e, .timer t ∈ events.receptors e ↔ .timer t ∈ s.events.receptors e)
    (epoll : ∀ {e q x}, .epoll q x ∈ events.receptors e →
      (x = e ∧ registered q e = true) ∧ ∀ u, e = .task u → s.alive u = true)
    (cleaned : ∀ {u q x}, (s.point s.self).cleaned = some u →
      .epoll q x ∉ events.receptors (.task u))
    (nodup : ∀ e, (events.receptors e).Nodup)
    (flags : ∀ t, events.flags (.wait t) = s.events.flags (.wait t))
    (wakeupTask : ∀ q, (events.epoll q).wakeupTask = (s.events.epoll q).wakeupTask) :
    Invariant sys { s with events := events, registered := registered } := by
  refine ⟨⟨h.sched.lists, h.sched.parked, h.sched.state, h.sched.selfState⟩,
    ⟨fun t => (h.event.task t).congr rfl rfl (fun eq => eq) rfl (wait t)
      (fun e => (timer t e).mp) (by rw [flags]) (fun q eq => (wakeupTask q) ▸ eq),
      nodup, fun mem => (epoll mem).1, ?_⟩, ⟨h.join.joins, h.join.target, ?_⟩⟩
  · intro u r mem
    cases r with
    | wait t => exact h.event.event ((wait t _).mp mem)
    | timer t => exact h.event.event ((timer t _).mp mem)
    | epoll q x => exact (epoll mem).2 u rfl
  · intro u r eq mem
    cases r with
    | wait t => exact h.join.cleaned eq ((wait t _).mp mem)
    | timer t => exact h.join.cleaned eq ((timer t _).mp mem)
    | epoll q x => exact cleaned eq mem

variable [DecidableEq T]

theorem Invariant.signalThen (h : Invariant sys s) (st : Stirred s s')
    (waits : (s.point s.self).waits = none) (timing : (s.point s.self).timing = false)
    (idle : p.Idle) (admits : p.admits true (s'.sched.state s.self)) :
    Invariant sys (s'.setPoint s.self p) := by
  have after := h.stirred st
  rw [← st.currentTask] at admits waits timing ⊢
  rw [← st.point] at waits timing
  exact after.setIdle admits waits timing idle

theorem Invariant.init (sys : System T O W C A) (main : T) (world : W) :
    Invariant sys (Eh.init (P := P) main world : Eh T O P W C A) where
  sched :=
    { lists := by
        refine ⟨fun _ => [], ⟨⟨?_, ?_⟩, ?_, ?_, ?_⟩, trivial⟩
        · intro i
          exact Links.ring_singleton.mpr ⟨rfl, rfl⟩
        · intro i j x memI memJ
          rw [Sched.nodes, List.map_nil, List.mem_singleton] at memI memJ
          rw [memI] at memJ
          cases i <;> cases j <;> simp [Sched.head] at memJ ⊢
        · simp [Eh.init]
        · intro i t
          simp only [Eh.init, List.not_mem_nil, decide_eq_true_eq, false_iff, not_and]
          exact fun eq ne => absurd eq ne
        · intro t live ne
          simp [Eh.init] at live ne
          exact absurd live ne
      parked := fun live ne => by
        simp [Eh.init] at live ne
        exact absurd live ne
      state := fun live ne => by
        simp [Eh.init] at live ne
        exact absurd live ne
      selfState := rfl }
  event :=
    { task := fun t => by
        refine ⟨?_, ?_, ?_, ?_, ?_, ?_, ?_⟩ <;> simp [Eh.init, Point.waits, Sched.state]
      nodup := by simp [Eh.init]
      epoll := by simp [Eh.init]
      event := by simp [Eh.init] }
  join :=
    { joins := by simp [Eh.init, Point.joins]
      target := by simp [Eh.init, Point.target]
      cleaned := by simp [Eh.init] }

variable [DecidableEq O] [DecidableEq P]

theorem Invariant.actStep (h : Invariant sys s) {a : A}
    (at_ : s.point s.self = .user ∨ s.point s.self = .acting a) :
    Invariant sys (s.actStep sys a) := by
  have stirred := perform_stirred sys h.event.owned a
  have runs : s.sched.state s.self = .runing := by
    have := h.sched.selfState
    rcases at_ with at_ | at_ <;> rw [at_] at this <;> exact this
  have runs' : (s.perform sys a).sched.state s.self = .runing := by
    rcases stirred.state s.self with same | ⟨waits, -⟩
    · exact same.trans runs
    · rw [runs] at waits
      cases waits
  rw [Eh.actStep]
  apply h.signalThen stirred
  · rcases at_ with at_ | at_ <;> rw [at_] <;> rfl
  · rcases at_ with at_ | at_ <;> rw [at_] <;> rfl
  · split
    · exact ⟨rfl, fun _ => trivial, rfl, rfl, rfl⟩
    · exact ⟨rfl, fun _ => trivial, rfl, rfl, rfl⟩
  · split
    · exact runs'
    · exact runs'

theorem Invariant.finishing (h : Invariant sys s) (at_ : s.point s.self = .finishing) :
    Invariant sys ((s.signal (.notify (.task s.self))).setPoint s.self (.next .finished)) := by
  have stirred := signal_stirred h.event.owned (.notify (.task s.self))
  have finish := h.sched.selfState
  rw [at_] at finish
  have finish' : (s.signal (.notify (.task s.self))).sched.state s.self = .finish := by
    rcases stirred.state s.self with same | ⟨waits, -⟩
    · exact same.trans finish
    · have := waits.symm.trans finish
      cases this
  exact h.signalThen stirred (by rw [at_]; rfl) (by rw [at_]; rfl)
    ⟨rfl, fun _ => trivial, rfl, rfl, rfl⟩ finish'

theorem Invariant.go (h : Invariant sys s) (step : s.go sys = some s') : Invariant sys s' := by
  rw [Eh.go] at step
  split at step
  · next at_ =>
    cases step
    have runs := h.sched.selfState
    rw [at_] at runs
    exact h.setIdle runs (by rw [at_]; rfl) (by rw [at_]; rfl) user_idle
  · cases step
  · next at_ =>
    cases step
    exact h.actStep (.inr at_)
  · next at_ =>
    cases step
    exact h.startTimer at_
  · next at_ =>
    cases step
    exact h.linkReceptor at_
  · next at_ =>
    cases step
    exact h.loopWait at_
  · next at_ =>
    cases step
    exact h.endWait at_
  · next at_ =>
    cases step
    exact h.afterWait at_
  · next at_ =>
    cases step
    exact h.destroying at_
  · next at_ =>
    cases step
    exact h.finishing at_
  · next at_ =>
    cases step
    exact h.nextStep at_
  · next at_ => exact h.pollStep at_ step
  · next at_ => exact h.dispatch at_ step
  · next at_ => exact h.idleCheck at_ step
  · next at_ => exact h.resume at_ step

theorem Invariant.epollAdd (h : Invariant sys s) (user : s.point s.self = .user) {q : P}
    {e : EhEvent T O} (ok : s.allocated e = true) : Invariant sys (s.ehEpollAddEvent q e) := by
  rw [Eh.ehEpollAddEvent]
  split
  · exact h
  · next new =>
    have mem_iff : ∀ {x r}, r ∈ ((s.events.setFlags (.epoll q e) .clear).addReceptor e
        (.epoll q e)).receptors x ↔ r ∈ s.events.receptors x ∨ x = e ∧ r = .epoll q e := by
      intro x r
      by_cases eq : x = e
      · subst eq
        simp [Events.addReceptor, Events.setFlags]
      · simp [Events.addReceptor, Events.setFlags, eq]
    refine h.epollEdit ?_ ?_ ?_ ?_ ?_ ?_ fun _ => rfl
    · intro t x
      exact mem_iff.trans (by simp)
    · intro t x
      exact mem_iff.trans (by simp)
    · intro x r y mem
      rcases mem_iff.mp mem with old | ⟨rfl, eq⟩
      · obtain ⟨rfl, reg⟩ := h.event.epoll old
        refine ⟨⟨rfl, ?_⟩, ?_⟩
        · by_cases eqR : r = q
          · subst eqR
            by_cases eqY : y = e
            · subst eqY
              simp
            · simpa [eqY] using reg
          · simpa [eqR] using reg
        · rintro u rfl
          exact h.event.event old
      · cases eq
        refine ⟨⟨rfl, by simp⟩, ?_⟩
        rintro u rfl
        exact ok
    · intro u r y eq
      rw [user] at eq
      cases eq
    · intro x
      by_cases eq : x = e
      · subst eq
        have out : .epoll q x ∉ s.events.receptors x := fun mem => new (h.event.epoll mem).2
        have split : ((s.events.setFlags (.epoll q x) .clear).addReceptor x
            (.epoll q x)).receptors x = s.events.receptors x ++ [.epoll q x] := by
          simp [Events.addReceptor, Events.setFlags]
        rw [split, List.nodup_append]
        refine ⟨h.event.nodup x, by simp, ?_⟩
        intro r mem r' mem'
        rintro rfl
        exact out (List.mem_singleton.mp mem' ▸ mem)
      · simpa [Events.addReceptor, Events.setFlags, eq] using h.event.nodup x
    · intro t
      simp [Events.addReceptor, Events.setFlags]

theorem Invariant.epollDel (h : Invariant sys s) (user : s.point s.self = .user) (q : P)
    (e : EhEvent T O) : Invariant sys (s.ehEpollDelEvent q e) := by
  rw [Eh.ehEpollDelEvent]
  split
  · have receptors : ∀ x, ((s.events.removeReceptor e (.epoll q e)).setEpoll q
        { s.events.epoll q with pending := (s.events.epoll q).pending.erase e }).receptors x =
          if x = e then (s.events.receptors x).erase (.epoll q e) else s.events.receptors x := by
      intro x
      by_cases eq : x = e
      · subst eq
        simp [Events.removeReceptor, Events.setEpoll]
      · simp [Events.removeReceptor, Events.setEpoll, eq]
    refine h.epollEdit ?_ ?_ ?_ ?_ ?_ (fun _ => rfl) ?_
    · intro t x
      rw [receptors]
      split
      · exact List.mem_erase_of_ne (by simp)
      · exact .rfl
    · intro t x
      rw [receptors]
      split
      · exact List.mem_erase_of_ne (by simp)
      · exact .rfl
    · intro x r y mem
      rw [receptors] at mem
      have old : .epoll r y ∈ s.events.receptors x := by
        split at mem
        · exact List.mem_of_mem_erase mem
        · exact mem
      obtain ⟨rfl, reg⟩ := h.event.epoll old
      have other : ¬ (r = q ∧ y = e) := by
        rintro ⟨rfl, rfl⟩
        rw [if_pos rfl, (h.event.nodup y).mem_erase_iff] at mem
        exact mem.1 rfl
      refine ⟨⟨rfl, ?_⟩, ?_⟩
      · by_cases eqR : r = q
        · subst eqR
          have eqY : y ≠ e := fun eq => other ⟨rfl, eq⟩
          simpa [eqY] using reg
        · simpa [eqR] using reg
      · rintro u rfl
        exact h.event.event old
    · intro u r y eq
      rw [user] at eq
      cases eq
    · intro x
      rw [receptors]
      split
      · exact (h.event.nodup x).erase _
      · exact h.event.nodup x
    · intro r
      by_cases eq : r = q
      · subst eq
        simp [Events.removeReceptor, Events.setEpoll]
      · simp [Events.removeReceptor, Events.setEpoll, eq]
  · exact h

theorem Invariant.user (h : Invariant sys s) (user : s.point s.self = .user)
    {l : Label T O P C A} (step : s.user sys l = some s') : Invariant sys s' := by
  have runs := h.runs user
  have waits : (s.point s.self).waits = none := by rw [user]; rfl
  have timing : (s.point s.self).timing = false := by rw [user]; rfl
  have yields : ∀ k : After T P C, k = .yield ∨ k = .finished →
      (Point.next k : Point T P C A).Idle := by
    rintro k (rfl | rfl) <;> exact ⟨rfl, fun _ => trivial, rfl, rfl, rfl⟩
  cases Eh.user_cases step with
  | wait joins => exact h.enter user fun v eq => joins v (Wait.joined_eq_some.mp eq)
  | act => exact h.actStep (.inl user)
  | create system auto dead => exact h.create dead system auto
  | yield => exact h.setIdle runs waits timing (yields _ (.inl rfl))
  | ret =>
    exact h.fromUser .finish user (p := .finishing)
      ⟨rfl, fun _ => trivial, rfl, rfl, rfl⟩ (by simp) rfl
  | exitMain => exact h.setIdle runs waits timing (yields _ (.inl rfl))
  | exit =>
    -- the point may be set before the event is notified
    have left := h.fromUser .finish user (p := .next .finished) (yields _ (.inr rfl))
      (by simp) rfl
    exact left.stirred (signal_stirred left.event.owned (.notify (.task s.self)))
  | epollAdd ok => exact h.epollAdd user ok
  | epollDel q e => exact h.epollDel user q e

theorem Invariant.step (h : Invariant sys s) {l : Label T O P C A}
    (step : s.step sys l = some s') : Invariant sys s' := by
  cases Eh.step_cases step with
  | go step => exact h.go step
  | user at_ step => exact h.user at_ step
  | signal g => exact h.stirred (signal_stirred h.event.owned g)
  | wakeUp live => exact h.stirred (.of_wakeUp live)
  | expire t => exact h.stirred (expire_stirred h.event.owned t)
  | interrupt => exact (h.stirred (perform_stirred sys h.event.owned _)).world _ _
  | interruptGo => exact (h.stirred (perform_stirred sys h.event.owned _)).world _ _

theorem Eh.Reachable.invariant {main : T} {world : W} (h : Reachable sys main world s) :
    Invariant sys s := by
  obtain ⟨ls, run⟩ := h
  exact run.invariant (fun inv step => inv.step step) (.init sys main world)

def Eh.runs (sys : System T O W C A) (main : T) (world : W) (ls : List (Label T O P C A)) :
    Option (Eh T O P W C A) :=
  ls.foldlM (fun s l => s.step sys l) (init main world)

theorem Eh.reachable_get {main : T} {world : W} {ls : List (Label T O P C A)}
    (h : (runs sys main world ls).isSome = true) :
    ((runs sys main world ls).get h).Reachable sys main world :=
  ⟨ls, .of_foldlM_some (Option.some_get h).symm⟩

end EventHub.Kernel
