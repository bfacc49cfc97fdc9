import EventHub.Kernel.Refinement

/-! Every step of the system is a run of the abstract machine: `eh_task_next`, and the steps as a
whole. -/

namespace EventHub.Kernel
open Library Event

variable {T O P W C A : Type} {sys : System T O W C A} {s s' : Eh T O P W C A}
  {k : After T P C} {tests : Option C}

theorem Invariant.unlinked (h : Invariant sys s) {u : T} {n : Node T} {idle : Bool}
    (at_ : s.point s.self = .poll (.unlink (.task u) n) idle k) : s.sched.state u = .finish := by
  obtain ⟨l, holds, pollOk⟩ := h.sched.lists
  rw [at_] at pollOk
  obtain ⟨v, rest, left, eq, -⟩ := pollOk
  cases eq
  have mem : u ∈ l .autoDestruct := by simp [left]
  exact (home_autoDestruct.mp ((holds.mem _ _).mp mem).2.2).1

theorem Point.parked_phase {p : Point T P C A} (parked : p.parked = true) : p.phase = .idle := by
  cases p with
  | fresh => rfl
  | resumed k => rfl
  | _ => cases parked

variable [DecidableEq T]

theorem Eh.destroy_asleep {u : T} (finish : s.sched.state u = .finish) (t : T) :
    (s.destroy u).Asleep t ↔ s.Asleep t := by
  rw [Asleep, Asleep, destroy]
  have state : (s.sched.ehListDel u).state t = s.sched.state t := rfl
  by_cases eq : t = u
  · subst eq
    simp [state, finish]
  · simp [state, eq]

theorem Eh.autoDestruct_view (s' : Eh T O P W C A) (self : s'.self = s.self) (point : s'.point = s.point)
    (asleep : ∀ t, s'.Asleep t ↔ s.Asleep t) (world : s'.world = s.world)
    (calls : s'.calls = s.calls)
    (queue : ∀ o, s'.events.receptors (.object o) = s.events.receptors (.object o))
    {pp : PollPoint T} {idle : Bool} (at_ : s.point s.self = .poll pp idle k) (pos : Node T) :
    (s'.autoDestruct pos idle k).view = s.view := by
  have phase : (s.point s.self).phase = .idle := by rw [at_]; rfl
  have waits : (s.point s.self).waitsOn = (Point.next k : Point T P C A).waitsOn := by
    rw [at_]
    cases k <;> rfl
  rw [autoDestruct, self]
  split
  · cases idle
    · exact view_next self point asleep phase.symm
        (by rw [waits]; cases k <;> rfl) world calls queue
    · exact view_next self point asleep phase.symm
        (by rw [waits]; cases k <;> rfl) world calls queue
  · exact view_next self point asleep phase.symm
        (by rw [waits]; cases k <;> rfl) world calls queue

theorem Eh.destroying_view (h : Invariant sys s) {u : T}
    (at_ : s.point s.self = .destroying u) : ((s.destroy u).setPoint s.self .user).view = s.view := by
  have target := h.join.target (u := u)
  rw [at_] at target
  have calm := h.calm at_ (by simp [Point.admits])
  obtain ⟨-, finish, -⟩ := target rfl
  refine view_same rfl rfl calm calm (fun t _ => destroy_asleep finish t) ?_ rfl rfl fun _ => rfl
  rw [at_]
  rfl

theorem Eh.continueAt_view {s₁ : Eh T O P W C A} (step : s₁.continueAt k = some s')
    (self : s₁.self = s.self) (point : s₁.point = s.point) (calm : s.sched.state s.self ≠ .wait)
    (calm' : s₁.sched.state s.self ≠ .wait)
    (asleep : ∀ t, t ≠ s.self → (s₁.Asleep t ↔ s.Asleep t))
    (phase : (s.point s.self).phase = .idle) (world : s₁.world = s.world)
    (calls : s₁.calls = s.calls)
    (queue : ∀ o, s₁.events.receptors (.object o) = s.events.receptors (.object o)) :
    s'.view = s.view := by
  cases k with
  | yield =>
    rw [continueAt, self] at step
    cases step
    exact view_same self point calm calm' asleep phase.symm world calls queue
  | finished => cases step
  | wait w =>
    rw [continueAt, self] at step
    cases step
    exact view_same self point calm calm' asleep phase.symm world calls queue

theorem Eh.nextStep_view (at_ : s.point s.self = .next k) :
    (s.nextStep sys k).view = s.view := by
  have phase : (s.point s.self).phase = .idle := by rw [at_]; rfl
  have waits : (s.point s.self).waitsOn = (Point.next k : Point T P C A).waitsOn := by rw [at_]
  rw [nextStep]
  split
  · exact view_next rfl rfl (fun _ => .rfl) phase.symm (by rw [waits]; cases k <;> rfl) rfl rfl
      fun _ => rfl
  · exact view_next rfl rfl (fun _ => .rfl) phase.symm (by rw [waits]; cases k <;> rfl) rfl rfl
      fun _ => rfl

theorem Eh.resume_view (h : Invariant sys s) (at_ : s.point s.self = .resumed k)
    (step : s.resume k = some s') : s'.view = s.view := by
  have calm := h.calm at_ (by simp [Point.admits])
  have phase : (s.point s.self).phase = .idle := by rw [at_]; rfl
  rw [resume] at step
  exact continueAt_view step rfl rfl calm calm (fun _ _ => .rfl) phase rfl rfl fun _ => rfl

theorem Eh.idleCheck_view (at_ : s.point s.self = .nextCheck k)
    (step : s.idleCheck k = some s') : s'.view = s.view := by
  have phase : (s.point s.self).phase = .idle := by rw [at_]; rfl
  rw [idleCheck] at step
  split at step
  · next awake =>
    have calm : s.sched.state s.self ≠ .wait := by
      rcases awake with runs | ready
      · simp [runs]
      · simp [ready]
    refine continueAt_view step rfl rfl calm ?_ (fun t ne => ?_) phase rfl rfl fun _ => rfl
    · simp
    · simp [Asleep, ne]
  · cases step
    refine view_next rfl rfl (fun _ => .rfl) phase.symm ?_ rfl rfl fun _ => rfl
    rw [at_]
    cases k <;> rfl

theorem Eh.setState_view (calm : s.sched.state s.self ≠ .wait) {st : TaskState}
    (ne : st ≠ .wait) : ({ s with sched := s.sched.setState s.self st } :
      Eh T O P W C A).view = s.view := by
  have sleeping : ({ s with sched := s.sched.setState s.self st } : Eh T O P W C A).view.sleeping =
      s.view.sleeping := by
    funext t
    by_cases eq : t = s.self
    · subst eq
      rw [sleeping_of_ne calm]
      apply sleeping_of_ne
      simpa using ne
    · apply sleeping_congr
      · simp [Asleep, eq]
      · rfl
  rw [View.mk.injEq]
  exact ⟨rfl, rfl, rfl, rfl, rfl, sleeping⟩

theorem Eh.init_view (main : T) (world : W) :
    (init main world : Eh T O P W C A).view = View.init main world := by
  have sleeping : (init main world : Eh T O P W C A).view.sleeping = fun _ => none := by
    funext t
    apply sleeping_of_ne
    simp [init, Sched.state]
  rw [View.mk.injEq]
  exact ⟨rfl, rfl, rfl, rfl, rfl, sleeping⟩

variable [DecidableEq O]

theorem Eh.create_view (h : Invariant sys s) {t : T} (dead : s.alive t = false)
    (isSystemTask isAutoDestruct : Bool) :
    (s.create t isSystemTask isAutoDestruct).view = s.view := by
  have ne : s.self ≠ t := by
    rintro rfl
    rw [h.sched.live] at dead
    cases dead
  have self : (s.create t isSystemTask isAutoDestruct).self = s.self :=
    s.sched.ehTaskCreate_currentTask t isSystemTask isAutoDestruct
  have point : ∀ u, u ≠ t → (s.create t isSystemTask isAutoDestruct).point u = s.point u :=
    fun u ne => Function.update_of_ne ne _ _
  have phase : (s.create t isSystemTask isAutoDestruct).view.phase = s.view.phase := by
    rw [view, view]
    dsimp only
    rw [self, point s.self ne]
  have queue : (s.create t isSystemTask isAutoDestruct).view.queue = s.view.queue := by
    funext o
    simp [view, create, setPoint]
  have sleeping : (s.create t isSystemTask isAutoDestruct).view.sleeping = s.view.sleeping := by
    funext u
    by_cases eq : u = t
    · subst eq
      rw [sleeping_of_dead dead, sleeping_of_ne]
      simp [create, setPoint]
    · apply sleeping_congr
      · simp [Asleep, create, setPoint, eq]
      · rw [point u eq]
  rw [View.mk.injEq]
  exact ⟨self, phase, rfl, rfl, queue, sleeping⟩

variable [DecidableEq P]

theorem Eh.pollStep_steps (h : Invariant sys s) {pp : PollPoint T} {idle : Bool}
    (at_ : s.point s.self = .poll pp idle k) (step : s.pollStep idle k pp = some s') :
    View.Steps sys tests s.view s'.view := by
  have phase : (s.point s.self).phase = .idle := by rw [at_]; rfl
  have waits : (s.point s.self).waitsOn = (Point.next k : Point T P C A).waitsOn := by
    rw [at_]
    cases k <;> rfl
  cases pp with
  | start =>
    rw [pollStep] at step
    apply View.Steps.of_eq
    split at step
    · cases step
      exact autoDestruct_view s rfl rfl (fun _ => .rfl) rfl rfl (fun _ => rfl) at_ _
    · cases step
      cases idle
      · exact view_next rfl rfl (fun _ => .rfl) phase.symm (by rw [waits]; cases k <;> rfl) rfl rfl
          fun _ => rfl
      · exact view_next rfl rfl (fun _ => .rfl) phase.symm (by rw [waits]; cases k <;> rfl) rfl rfl
          fun _ => rfl
  | destroy pos n =>
    cases pos with
    | task u =>
      cases step
      exact signalNext_steps h.event.owned _ phase.symm (by rw [waits]; cases k <;> rfl)
    | _ => cases step
  | unlink pos n =>
    cases pos with
    | task u =>
      cases step
      apply View.Steps.of_eq
      exact autoDestruct_view (s := s) (s.destroy u) rfl rfl (destroy_asleep (h.unlinked at_)) rfl rfl
        (fun _ => rfl) at_ _
    | _ => cases step

theorem Eh.dispatch_steps (h : Invariant sys s) (at_ : s.point s.self = .nextLoop k)
    (step : s.dispatch k = some s') : View.Steps sys tests s.view s'.view := by
  have phase : (s.point s.self).phase = .idle := by rw [at_]; rfl
  have waits : (s.point s.self).waitsOn = (Point.next k : Point T P C A).waitsOn := by
    rw [at_]
    cases k <;> rfl
  rw [dispatch] at step
  split at step
  · cases step
    apply View.Steps.of_eq
    exact view_next rfl rfl (fun _ => .rfl) phase.symm (by rw [waits]; cases k <;> rfl) rfl rfl
      fun _ => rfl
  · next more =>
    split at step
    · next u next =>
      cases step
      rw [Bool.not_eq_true] at more
      obtain ⟨live, neU, parked, ready⟩ := h.next_ready more next
      have awake : s.view.sleeping u = none := sleeping_of_ne (by simp [ready])
      have switched : View.Step sys s.view none _ := .switch phase awake
      have current := s.sched.switchTo_currentTask u
      have at_u : Function.update s.point s.self (.resumed k) (s.sched.switchTo u).currentTask =
          s.point u := by
        rw [current]
        exact Function.update_of_ne neU _ _
      have phase' : (s.point u).phase = .idle := Point.parked_phase parked
      refine .single ?_
      convert switched using 1
      rw [View.mk.injEq]
      refine ⟨current, ?_, rfl, rfl, rfl, ?_⟩
      · exact (congrArg Point.phase at_u).trans (phase'.trans phase.symm)
      · funext t
        by_cases eqU : t = u
        · subst eqU
          rw [awake]
          apply sleeping_of_ne
          simp [Sched.switchTo_state]
        · apply sleeping_congr
          · rw [Asleep, Asleep, Sched.switchTo_state, if_neg eqU]
            split
            · next both => simp [both.2]
            · exact .rfl
          · simp only [Eh.point_setPoint]
            by_cases eq : t = s.self
            · rw [eq, Function.update_self, waits]
              cases k <;> rfl
            · rw [Function.update_of_ne eq]
    · cases step


theorem Eh.actStep_steps (h : Invariant sys s) {a : A}
    (at_ : s.point s.self = .user ∧ sys.fromTask a = true ∨ s.point s.self = .acting a) :
    View.Steps sys tests s.view (s.actStep sys a).view := by
  have runs : s.sched.state s.self = .runing := by
    have runs := h.sched.selfState
    rcases at_ with ⟨at_, -⟩ | at_ <;> rw [at_] at runs <;> exact runs
  have calm : s.sched.state s.self ≠ .wait := by simp [runs]
  have phase : s.view.phase = .idle ∧ sys.fromTask a = true ∨ s.view.phase = .acting a := by
    rw [view]
    dsimp only
    rcases at_ with ⟨at_, allowed⟩ | at_
    · left
      rw [at_]
      exact ⟨rfl, allowed⟩
    · right
      rw [at_]
      rfl
  have st := perform_stirred sys h.event.owned a
  obtain ⟨seen, woken⟩ : _ ∧ s.view.Woken (sys.act a s.self s.world).signal _ :=
    perform_view h.event.owned a
  have calm' := st.calm calm
  rw [← st.currentTask] at calm'
  have moved : ∀ p : Point T P C A, ((s.perform sys a).setPoint s.self p).view =
      { (s.perform sys a).view with phase := p.phase } := fun p => by
    have seen := view_setPoint (p := p) (s := s.perform sys a) rfl rfl calm' calm' fun _ _ => .rfl
    rwa [st.currentTask] at seen
  have step : View.Step sys s.view none _ := .act phase woken
  rw [actStep, moved, seen]
  cases rest : (sys.act a s.self s.world).rest with
  | none =>
    rw [show (sys.act a s.view.self s.view.world).rest = none from rest] at step
    exact .single step
  | some b =>
    rw [show (sys.act a s.view.self s.view.world).rest = some b from rest] at step
    exact .single step

theorem Eh.go_steps (h : Invariant sys s) (step : s.go sys = some s') :
    View.Steps sys (s.tests .go) s.view s'.view := by
  rw [go] at step
  split at step
  · next at_ =>
    cases step
    have calm := h.calm at_ (by simp [Point.admits])
    apply View.Steps.of_eq
    exact view_same rfl rfl calm calm (fun _ _ => .rfl) (by rw [at_]; rfl) rfl rfl fun _ => rfl
  · cases step
  · next at_ =>
    cases step
    exact actStep_steps h (.inr at_)
  · next at_ =>
    cases step
    exact .of_eq (startTimer_view h at_)
  · next at_ =>
    cases step
    exact linkReceptor_steps h at_
  · next at_ =>
    cases step
    rw [tests, at_]
    exact loopWait_steps h at_
  · next at_ =>
    cases step
    exact .of_eq (endWait_view h at_)
  · next at_ =>
    cases step
    exact afterWait_steps h at_
  · next at_ =>
    cases step
    exact .of_eq (destroying_view h at_)
  · next at_ =>
    cases step
    have calm := h.calm at_ (by simp [Point.admits])
    exact signalThen_steps h.event.owned _ calm (by rw [at_]; rfl)
  · next at_ =>
    cases step
    exact .of_eq (nextStep_view at_)
  · next at_ => exact pollStep_steps h at_ step
  · next at_ => exact dispatch_steps h at_ step
  · next at_ => exact .of_eq (idleCheck_view at_ step)
  · next at_ => exact .of_eq (resume_view h at_ step)

theorem Eh.epollAdd_view (p : P) (e : EhEvent T O) :
    (s.ehEpollAddEvent p e).view = s.view ∨
      ∃ o, e = .object o ∧ (s.ehEpollAddEvent p e).view = s.view.watch p o := by
  rw [ehEpollAddEvent]
  split
  · exact .inl rfl
  · cases e with
    | object o =>
      right
      refine ⟨o, rfl, ?_⟩
      rw [View.mk.injEq]
      exact ⟨rfl, rfl, rfl, rfl, funext fun x => update_object _ _ _ _, rfl⟩
    | _ =>
      left
      rw [View.mk.injEq]
      refine ⟨rfl, rfl, rfl, rfl, funext fun x => ?_, rfl⟩
      simp [view, Events.addReceptor, Events.setFlags]

theorem Eh.epollDel_steps (p : P) (e : EhEvent T O) :
    View.Steps sys tests s.view (s.ehEpollDelEvent p e).view := by
  rw [ehEpollDelEvent]
  split
  · cases e with
    | object o =>
      have unwatch : View.Step sys s.view none _ := .unwatch (p := p) (o := o)
      refine .single ?_
      convert unwatch using 1
      rw [View.mk.injEq]
      exact ⟨rfl, rfl, rfl, rfl, funext fun x => update_object _ _ _ _, rfl⟩
    | _ =>
      apply View.Steps.of_eq
      rw [View.mk.injEq]
      refine ⟨rfl, rfl, rfl, rfl, funext fun x => ?_, rfl⟩
      simp [view, Events.removeReceptor, Events.setEpoll]
  · exact .refl

theorem Eh.user_steps (h : Invariant sys s) (at_ : s.point s.self = .user)
    {l : Label T O P C A} (step : s.user sys l = some s') :
    View.Steps sys (s.tests l) s.view s'.view ∨
      ∃ p o, l = .epollAdd p (.object o) ∧ s'.view = s.view.watch p o := by
  have calm := h.calm at_ (by simp [Point.admits])
  have idle : (s.point s.self).phase = .idle := by rw [at_]; rfl
  have calm' : (s.sched.setState s.self .finish).state s.self ≠ .wait := by simp
  have seen := setState_view (s := s) calm (by decide : TaskState.finish ≠ .wait)
  cases user_cases step with
  | @wait w =>
    left
    obtain ⟨caller, timeout⟩ := w
    cases caller with
    | join u => exact enter_steps (w := ⟨.join u, timeout⟩) h at_
    | object c => exact enter_steps (w := ⟨.object c, timeout⟩) h at_
    | epoll q n => exact enter_steps (w := ⟨.epoll q n, timeout⟩) h at_
  | act allowed => exact .inl (actStep_steps h (.inl ⟨at_, allowed⟩))
  | create system auto dead => exact .inl (.of_eq (create_view h dead system auto))
  | yield =>
    left
    apply View.Steps.of_eq
    exact view_same rfl rfl calm calm (fun _ _ => .rfl) idle.symm rfl rfl fun _ => rfl
  | ret =>
    left
    rw [← seen]
    apply View.Steps.of_eq
    exact view_same rfl rfl calm' calm' (fun _ _ => .rfl) idle.symm rfl rfl fun _ => rfl
  | exitMain =>
    left
    apply View.Steps.of_eq
    exact view_same rfl rfl calm calm (fun _ _ => .rfl) idle.symm rfl rfl fun _ => rfl
  | exit =>
    left
    rw [← seen]
    have own : Owned { s with sched := s.sched.setState s.self .finish } :=
      ⟨h.event.owned.receptor, h.event.owned.epoll, h.event.owned.single⟩
    exact signalThen_steps own _ calm' idle.symm
  | @epollAdd p e =>
    rcases s.epollAdd_view p e with same | ⟨o, rfl, watched⟩
    · exact .inl (.of_eq same)
    · exact .inr ⟨p, o, rfl, watched⟩
  | epollDel p e => exact .inl (epollDel_steps p e)

theorem Eh.interrupt_step (own : Owned s) {a : A} {calls : List A}
    (from_ : sys.fromInterrupt a = true ∧ calls = s.calls ∨
      ∃ i, s.calls[i]? = some a ∧ calls = s.calls.eraseIdx i) :
    View.Step sys s.view none ({ s.perform sys a with
      calls := calls ++ (sys.act a s.self s.world).rest.toList } : Eh T O P W C A).view := by
  obtain ⟨seen, woken⟩ : _ ∧ s.view.Woken (sys.act a s.self s.world).signal _ :=
    perform_view own a
  have step : View.Step sys s.view none _ := .interrupt from_ woken
  have moved : ({ s.perform sys a with
      calls := calls ++ (sys.act a s.self s.world).rest.toList } : Eh T O P W C A).view =
        { (s.perform sys a).view with
          calls := calls ++ (sys.act a s.self s.world).rest.toList } := rfl
  rw [moved, seen]
  exact step

/-- Every step of the system is a run of the abstract machine, unless it links an epoll to an
object. -/
theorem Eh.step_steps (h : Invariant sys s) {l : Label T O P C A}
    (step : s.step sys l = some s') :
    View.Steps sys (s.tests l) s.view s'.view ∨
      ∃ p o, l = .epollAdd p (.object o) ∧ s'.view = s.view.watch p o := by
  have own := h.event.owned
  cases step_cases step with
  | go step => exact .inl (go_steps h step)
  | user at_ step => exact user_steps h at_ step
  | signal g => exact .inl (.single (signal_step own g))
  | wakeUp live => exact .inl (.single (wakes (.of_wakeUp live) rfl rfl fun _ => rfl))
  | expire t =>
    left
    refine .single (wakes (expire_stirred own t) ?_ ?_ fun o => ?_)
    · rw [expire]
      split <;> rfl
    · rw [expire]
      split <;> rfl
    · rw [expire]
      split
      · exact congrFun (Events.ehEventNotify_receptors _ _) _
      · rfl
  | interrupt allowed => exact .inl (.single (interrupt_step own (.inl ⟨allowed, rfl⟩)))
  | interruptGo at_ => exact .inl (.single (interrupt_step own (.inr ⟨_, at_, rfl⟩)))

variable {main : T} {world : W} {ls : List (Label T O P C A)} {J : View T O P W C A → Prop}
  {R : Eh T O P W C A → Label T O P C A → Eh T O P W C A → Prop}

/-- What the steps of the abstract machine keep holds behind every run of the system, here one
whose steps are all of the kind `R`. -/
theorem Eh.view_of_run (run : Run R (init main world) ls s)
    (sub : ∀ {s l t}, R s l t → s.step sys l = some t)
    (kept : ∀ {s l t i}, R s l t → J s.view → View.Step sys s.view i t.view →
      (∀ c, i = some c → s.tests l = some c) → J t.view)
    (watch : ∀ {s t p o}, R s (.epollAdd p (.object o)) t → J s.view → J (s.view.watch p o))
    (start : J (View.init main world)) : J s.view := by
  have start' : J (init main world : Eh T O P W C A).view := by
    rw [init_view]
    exact start
  refine (run.invariant (I := fun s => Invariant sys s ∧ J s.view) ?_
    ⟨.init sys main world, start'⟩).2
  rintro s l t ⟨inv, ok⟩ step
  refine ⟨inv.step (sub step), ?_⟩
  rcases step_steps inv (sub step) with steps | ⟨p, o, rfl, watched⟩
  · generalize seen : t.view = v at steps
    cases steps with
    | refl => exact ok
    | single one => exact seen ▸ kept step ok (seen ▸ one) fun c eq => by cases eq
    | met tested one =>
      subst seen
      exact kept step ok one fun c eq => by cases eq; exact tested
  · rw [watched]
    exact watch step ok

theorem Eh.Reachable.view (h : s.Reachable sys main world)
    (kept : ∀ {v v' i}, J v → View.Step sys v i v' → J v')
    (watch : ∀ {v p o}, J v → J (v.watch p o)) (start : J (View.init main world)) :
    J s.view := by
  obtain ⟨ls, run⟩ := h
  exact view_of_run run (fun step => step) (fun _ ok step _ => kept ok step)
    (fun _ ok => watch ok) start

def Label.thenGo (l : Label T O P C A) (n : Nat) : List (Label T O P C A) :=
  l :: .replicate n .go

end EventHub.Kernel
