import EventHub.Kernel.View

/-! Every step of the system is a run of the abstract machine of queues. -/

namespace EventHub.Kernel
open Library Event

variable {T O P W C A : Type} {sys : System T O W C A} {s s' : Eh T O P W C A}
  {k : After T P C} {w : Wait T P C} {p : Point T P C A} {t : T} {tests : Option C}

theorem Eh.sleeping_of_ne (awake : s.sched.state t ≠ .wait) : s.view.sleeping t = none :=
  if_neg fun both => awake both.2

theorem Eh.sleeping_of_dead (dead : s.alive t = false) : s.view.sleeping t = none :=
  if_neg fun both => by simp [dead] at both

theorem Eh.sleeping_of_calm (calm : (s.point t).waitsOn = none) : s.view.sleeping t = none := by
  rw [view]
  dsimp only
  rw [calm, ite_self]

def Eh.Asleep (s : Eh T O P W C A) (t : T) : Prop := s.alive t = true ∧ s.sched.state t = .wait

theorem Eh.sleeping_congr (asleep : s'.Asleep t ↔ s.Asleep t)
    (point : (s'.point t).waitsOn = (s.point t).waitsOn) :
    s'.view.sleeping t = s.view.sleeping t := by
  rw [Asleep, Asleep] at asleep
  simp only [view, asleep, point]

theorem update_object {β : Type} [DecidableEq T] [DecidableEq O] (q : EhEvent T O → β) (o x : O)
    (b : β) : Function.update q (.object o) b (.object x) =
      Function.update (fun x => q (.object x)) o b x := by
  by_cases eq : x = o
  · subst eq
    simp
  · simp [eq]

theorem update_elsewhere {β : Type} [DecidableEq T] [DecidableEq O] (q : EhEvent T O → β)
    {e : EhEvent T O} (other : ∀ o, e ≠ .object o) (b : β) (x : O) :
    Function.update q e b (.object x) = q (.object x) :=
  Function.update_of_ne (other x).symm _ _

section Wakes
variable [DecidableEq T]

theorem Stirred.kept_sleeping (st : Stirred s s') (t : T) :
    s'.view.sleeping t = s.view.sleeping t ∨ s'.view.sleeping t = none := by
  rcases st.state t with same | ⟨-, ready⟩
  · left
    apply Eh.sleeping_congr
    · rw [Eh.Asleep, Eh.Asleep, st.alive, same]
    · rw [st.point]
  · right
    apply Eh.sleeping_of_ne
    simp [ready]

theorem Eh.view_stirred (st : Stirred s s') (world : s'.world = s.world)
    (calls : s'.calls = s.calls) : s'.view =
      { s.view with
        queue := s'.view.queue
        sleeping := s'.view.sleeping } := by
  have phase : s'.view.phase = s.view.phase := by
    rw [view, view, st.currentTask, st.point]
  rw [View.mk.injEq]
  exact ⟨st.currentTask, phase, world, calls, rfl, rfl⟩

variable [DecidableEq O] [DecidableEq P]

theorem Eh.wakes (st : Stirred s s') (world : s'.world = s.world) (calls : s'.calls = s.calls)
    (queue : ∀ o, s'.events.receptors (.object o) = s.events.receptors (.object o)) :
    View.Step sys s.view none s'.view := by
  have queue' : s'.view.queue = s.view.queue := funext queue
  rw [view_stirred st world calls, queue']
  exact .signal (g := none) ⟨st.kept_sleeping, fun t mem => by cases mem⟩

theorem Eh.signal_object (own : Owned s) (g : Signal O) :
    (s.signal (g.map .object)).view =
      { s.view with
        queue := Signal.after (some g) s.view.queue
        sleeping := (s.signal (g.map .object)).view.sleeping } ∧
      s.view.Woken (some g) (s.signal (g.map .object)).view.sleeping := by
  have st := signal_stirred own (g.map .object)
  have queue : (s.signal (g.map .object)).view.queue = Signal.after (some g) s.view.queue := by
    funext o
    cases g with
    | notify e =>
      exact congrFun (Events.ehEventNotify_receptors _ _) _
    | notifyAndReorder e num => exact update_object _ _ _ _
    | clean e =>
      have cleaned := congrFun (s.events.ehEventClean_receptors (.object e)) (.object o)
      exact cleaned.trans (update_object _ _ _ _)
  refine ⟨?_, st.kept_sleeping, fun t mem => Eh.sleeping_of_ne ?_⟩
  · have seen := view_stirred st (by cases g <;> rfl) (by cases g <;> rfl)
    rwa [queue] at seen
  · cases g with
    | notify e => exact reach_state (.inl mem)
    | notifyAndReorder e num => exact reach_state (.inl mem)
    | clean e => exact reach_state (.inl mem)

theorem Eh.perform_view (own : Owned s) (a : A) :
    (s.perform sys a).view =
      { s.view with
        world := (sys.act a s.self s.world).world
        queue := Signal.after (sys.act a s.self s.world).signal s.view.queue
        sleeping := (s.perform sys a).view.sleeping } ∧
      s.view.Woken (sys.act a s.self s.world).signal (s.perform sys a).view.sleeping := by
  have own' : Owned { s with world := (sys.act a s.self s.world).world } :=
    ⟨own.receptor, own.epoll, own.single⟩
  rw [perform]
  split
  · next none =>
    rw [none]
    exact ⟨rfl, fun t => .inl rfl, fun t mem => by cases mem⟩
  · next g some =>
    rw [some]
    obtain ⟨seen, woken⟩ := signal_object own' g
    exact ⟨seen, woken.kept, woken.reached⟩

end Wakes

section Points
variable [DecidableEq T]

theorem Eh.point_setPoint (s : Eh T O P W C A) (t : T) (p : Point T P C A) :
    (s.setPoint t p).point = Function.update s.point t p := rfl

theorem Eh.view_setPoint (self : s'.self = s.self) (point : s'.point = s.point)
    (calm : s.sched.state s.self ≠ .wait) (calm' : s'.sched.state s.self ≠ .wait)
    (asleep : ∀ t, t ≠ s.self → (s'.Asleep t ↔ s.Asleep t)) :
    (s'.setPoint s.self p).view =
      { s.view with
        phase := p.phase
        world := s'.world
        calls := s'.calls
        queue := s'.view.queue } := by
  have phase : (s'.setPoint s.self p).view.phase = p.phase := by
    have at_ : (s'.setPoint s.self p).self = s.self := self
    rw [view]
    dsimp only
    rw [at_, Eh.point_setPoint, Function.update_self]
  have sleeping : (s'.setPoint s.self p).view.sleeping = s.view.sleeping := by
    funext t
    by_cases eq : t = s.self
    · subst eq
      rw [sleeping_of_ne calm, sleeping_of_ne (s := s'.setPoint s.self p) calm']
    · refine sleeping_congr (asleep t eq : _) ?_
      rw [Eh.point_setPoint, Function.update_of_ne eq, point]
  rw [View.mk.injEq]
  exact ⟨self, phase, rfl, rfl, rfl, sleeping⟩

theorem Eh.view_same (self : s'.self = s.self) (point : s'.point = s.point)
    (calm : s.sched.state s.self ≠ .wait) (calm' : s'.sched.state s.self ≠ .wait)
    (asleep : ∀ t, t ≠ s.self → (s'.Asleep t ↔ s.Asleep t))
    (phase : p.phase = (s.point s.self).phase) (world : s'.world = s.world)
    (calls : s'.calls = s.calls)
    (queue : ∀ o, s'.events.receptors (.object o) = s.events.receptors (.object o)) :
    (s'.setPoint s.self p).view = s.view := by
  have queue' : s'.view.queue = s.view.queue := funext queue
  rw [view_setPoint self point calm calm' asleep, phase, world, calls, queue']
  rfl

theorem Eh.view_next (self : s'.self = s.self) (point : s'.point = s.point)
    (asleep : ∀ t, s'.Asleep t ↔ s.Asleep t)
    (phase : p.phase = (s.point s.self).phase) (waits : p.waitsOn = (s.point s.self).waitsOn)
    (world : s'.world = s.world) (calls : s'.calls = s.calls)
    (queue : ∀ o, s'.events.receptors (.object o) = s.events.receptors (.object o)) :
    (s'.setPoint s.self p).view = s.view := by
  have point' : (s'.setPoint s.self p).point = Function.update s.point s.self p := by
    rw [Eh.point_setPoint, point]
  have phase' : (s'.setPoint s.self p).view.phase = s.view.phase := by
    have at_ : (s'.setPoint s.self p).self = s.self := self
    rw [view, view]
    dsimp only
    rw [at_, point', Function.update_self, phase]
  have queue' : (s'.setPoint s.self p).view.queue = s.view.queue := funext queue
  have sleeping : (s'.setPoint s.self p).view.sleeping = s.view.sleeping := by
    funext t
    refine sleeping_congr (asleep t : _) ?_
    rw [point']
    by_cases eq : t = s.self
    · rw [eq, Function.update_self, waits]
    · rw [Function.update_of_ne eq]
  rw [View.mk.injEq]
  exact ⟨self, phase', world, calls, queue', sleeping⟩

end Points

section Steps
variable [DecidableEq T] [DecidableEq O] [DecidableEq P]

theorem View.leave_of_not_mem {v : View T O P W C A} {c : C}
    (out : .wait v.self ∉ v.queue (sys.event c)) : v.leave sys c = v.queue := by
  rw [leave, List.erase_of_not_mem out, Function.update_eq_self]

theorem Eh.enter_steps (h : Invariant sys s) (user : s.point s.self = .user) :
    View.Steps sys w.on s.view (s.enter sys w).view := by
  have calm := h.calm user (by simp [Point.admits])
  have idle : (s.point s.self).phase = .idle := by rw [user]; rfl
  have running : s.view.Running := ⟨idle, sleeping_of_ne calm⟩
  have out : ∀ o, .wait s.self ∉ s.view.queue o := fun o =>
    h.event.not_wait (by rw [user]; rfl) _
  have moves : ∀ (world : W) (p : Point T P C A),
      ({ s with world := world }.setPoint s.self p).view =
        { s.view with phase := p.phase, world := world } := fun world p =>
    view_setPoint rfl rfl calm calm fun _ _ => .rfl
  -- the wait behind its first test
  have start : ∀ {c timeout world}, sys.Tested c s.self s.world false world →
      View.Steps sys (some c) s.view
        ({ s with world := world }.startWait ⟨.object c, timeout⟩).view := by
    intro c timeout world tested
    have test := View.Step.test (v := s.view) running tested
    have refused := View.Step.refused (v := s.view) running tested (.inl rfl)
    rw [View.leave_of_not_mem (out _)] at refused
    rw [startWait]
    split
    · rw [moves, show (Point.waitAdd _).phase = s.view.phase from idle.symm]
      exact .single test
    · split
      · rw [moves]
        exact .single refused
      · rw [moves, show (Point.waitTimer _).phase = s.view.phase from idle.symm]
        exact .single test
  obtain ⟨caller, timeout⟩ := w
  rw [enter]
  cases caller with
  | join u =>
    have moved : ∀ p : Point T P C A, p.phase = .idle →
        (s.setPoint s.self p).view = s.view := fun p phase =>
      view_same rfl rfl calm calm (fun _ _ => .rfl) (phase.trans idle.symm) rfl rfl fun _ => rfl
    apply View.Steps.of_eq
    dsimp only [condition]
    by_cases finished : s.sched.state u = .finish
    · simp only [finished, decide_true]
      exact moved (.returned _ _) rfl
    · simp only [finished, decide_false]
      rw [startWait]
      split
      · exact moved (.waitAdd _) rfl
      · split
        · exact moved (.returned _ _) rfl
        · exact moved (.waitTimer _) rfl
  | object c =>
    dsimp only [condition]
    cases cond : sys.condition c with
    | none => 
      dsimp only [Option.map_none]
      exact start (by rw [System.Tested, cond])
    | some f =>
      dsimp only [Option.map_some]
      cases tested : f s.self s.world with
      | mk b world =>
        have tested' : sys.Tested c s.self s.world b world := by
          rw [System.Tested, cond]
          exact tested
        cases b
        · exact start tested'
        · have met := View.Step.met (v := s.view) running tested'
          rw [View.leave_of_not_mem (out _)] at met
          dsimp only
          rw [moves]
          exact .met rfl met
  | epoll q n =>
    apply View.Steps.of_eq
    dsimp only
    split
    · exact view_same rfl rfl calm calm (fun _ _ => .rfl) (by exact idle.symm) rfl rfl fun _ => rfl
    · split
      · exact view_same rfl rfl calm calm (fun _ _ => .rfl) (by exact idle.symm) rfl rfl fun _ => rfl
      · have read := (readPending_frame q s.events (s.events.epoll q).pending n).1
        refine view_same rfl rfl calm calm (fun _ _ => .rfl) idle.symm rfl rfl fun o => ?_
        exact congrFun read _

theorem Eh.startTimer_view (h : Invariant sys s) (at_ : s.point s.self = .waitTimer w) :
    (s.startTimer w).view = s.view := by
  have calm := h.calm at_ (by simp [Point.admits])
  refine view_same rfl rfl calm calm (fun _ _ => .rfl) ?_ rfl rfl fun o => ?_
  · rw [at_]
    split <;> rfl
  · simp

theorem Eh.linkReceptor_steps (h : Invariant sys s) (at_ : s.point s.self = .waitAdd w) :
    View.Steps sys tests s.view (s.linkReceptor sys w).view := by
  have calm := h.calm at_ (by simp [Point.admits])
  have idle : (s.point s.self).phase = .idle := by rw [at_]; rfl
  have running : s.view.Running := ⟨idle, sleeping_of_ne calm⟩
  have out : ∀ o, .wait s.self ∉ s.view.queue o := fun o =>
    h.event.not_wait (by rw [at_]; rfl) _
  have phase : (Point.waitLoop w : Point T P C A).phase = s.view.phase := idle.symm
  obtain ⟨caller, timeout⟩ := w
  rw [linkReceptor]
  cases caller with
  | join u =>
    apply View.Steps.of_eq
    refine view_same rfl rfl calm calm (fun _ _ => .rfl) phase rfl rfl fun o => ?_
    simp [Events.addReceptor, Events.setFlags]
  | object c =>
    let linked : Eh T O P W C A := { s with
      events := (s.events.setFlags (.wait s.self) .clear).addReceptor (.object (sys.event c))
        (.wait s.self) }
    have queue : linked.view.queue = Function.update s.view.queue (sys.event c)
        (s.view.queue (sys.event c) ++ [.wait s.self]) := funext fun o => update_object _ _ _ _
    have seen : (linked.setPoint s.self (.waitLoop ⟨.object c, timeout⟩)).view = _ :=
      view_setPoint rfl rfl calm calm fun _ _ => .rfl
    rw [phase, queue] at seen
    dsimp only [Wait.event]
    rw [seen]
    exact .single (.join running out)
  | epoll q n =>
    apply View.Steps.of_eq
    exact view_same rfl rfl calm calm (fun _ _ => .rfl) phase rfl rfl fun _ => rfl

omit [DecidableEq T] [DecidableEq O] [DecidableEq P] in
theorem Eh.checkTimer_some {ret : Int} (h : s.checkTimer w = some ret) :
    ret = ehRetTimeout ∨ ret = ehRetEventError := by
  rw [checkTimer] at h
  split at h
  · split at h <;> cases h
    · exact .inl rfl
    · exact .inr rfl
  · cases h

inductive Checked (sys : System T O W C A) (s : Eh T O P W C A) (c : C) :
    Option Int × Eh T O P W C A → Prop
  | met {world : W} : (s.events.flags (.wait s.self)).error = false →
      sys.Tested c s.self s.world true world →
      Checked sys s c (some ehRetOk, { s with world := world })
  | triggered : sys.condition c = none → Checked sys s c (some ehRetOk, s)
  | refused {world : W} {ret : Int} : sys.Tested c s.self s.world false world →
      ret = ehRetTimeout ∨ ret = ehRetEventError →
      Checked sys s c (some ret, { s with world := world })
  | failed : (s.events.flags (.wait s.self)).error = true →
      Checked sys s c (some ehRetEventError, s)
  | waits {world : W} : sys.Tested c s.self s.world false world →
      (s.events.flags (.wait s.self)).error = false →
      Checked sys s c (none, { s with world := world })

theorem Eh.check_object (sys : System T O W C A) (s : Eh T O P W C A) (c : C) (timeout : Int) :
    Checked sys s c (s.check sys ⟨.object c, timeout⟩) := by
  rw [check]
  dsimp only [condition]
  cases cond : sys.condition c with
  | none =>
    have tested : ∀ b, sys.Tested c s.self s.world b s.world := fun b => by
      rw [System.Tested, cond]
    dsimp only [Option.map_none]
    split
    · next any =>
      split
      · exact .triggered cond
      · next quiet =>
        rw [Flags.any, Bool.or_eq_true] at any
        exact .failed (any.resolve_left quiet)
    · next quiet =>
      rw [Flags.any, Bool.or_eq_true, not_or, Bool.not_eq_true, Bool.not_eq_true] at quiet
      cases timer : s.checkTimer ⟨.object c, timeout⟩ with
      | none => exact .waits (tested false) quiet.2
      | some ret => exact .refused (tested false) (checkTimer_some timer)
  | some f =>
    dsimp only [Option.map_some]
    cases eq : f s.self s.world with
    | mk met world =>
      have tested : sys.Tested c s.self s.world met world := by
        rw [System.Tested, cond]
        exact eq
      dsimp only
      split
      · next err => exact .failed err
      · next quiet =>
        cases met with
        | true => exact .met (by simpa using quiet) tested
        | false =>
          simp only [Bool.false_eq_true, if_false]
          cases timer : s.checkTimer ⟨.object c, timeout⟩ with
          | none => exact .waits tested (by simpa using quiet)
          | some ret => exact .refused tested (checkTimer_some timer)

theorem Eh.leaveWait_object (calm : s.sched.state s.self ≠ .wait) {c : C} {timeout ret : Int} :
    (s.leaveWait sys ⟨.object c, timeout⟩ ret).view =
      { s.view with
        phase := .verdict c ret
        queue := s.view.leave sys c } := by
  let left : Eh T O P W C A := { s with
    events := s.events.removeReceptor (.object (sys.event c)) (.wait s.self)
    reached := Function.update s.reached s.self false }
  have queue : left.view.queue = s.view.leave sys c := funext fun o => update_object _ _ _ _
  have moved : ∀ p : Point T P C A, (left.setPoint s.self p).view =
      { s.view with
        phase := p.phase
        queue := s.view.leave sys c } := fun p => by
    have seen : (left.setPoint s.self p).view = _ := view_setPoint rfl rfl calm calm fun _ _ => .rfl
    rw [queue] at seen
    exact seen
  rw [leaveWait]
  dsimp only [Wait.event]
  split
  · exact moved (.waitEnd _ _)
  · exact moved (.returned _ _)

omit [DecidableEq O] in
theorem Eh.park_object (live : s.alive s.self = true) (idle : (s.point s.self).phase = .idle)
    {c : C} {timeout : Int} :
    (s.park ⟨.object c, timeout⟩).view =
      { s.view with sleeping := Function.update s.view.sleeping s.self (some c) } := by
  have sleeping : (s.park ⟨.object c, timeout⟩).view.sleeping =
      Function.update s.view.sleeping s.self (some c) := by
    funext t
    by_cases eq : t = s.self
    · subst eq
      simp [view, park, setPoint, live, Point.waitsOn, Point.waits]
    · rw [Function.update_of_ne eq]
      apply sleeping_congr
      · simp [Asleep, park, setPoint, eq]
      · rw [park, Eh.point_setPoint, Function.update_of_ne eq]
  have at_ : (s.park ⟨.object c, timeout⟩).point s.self = .next (.wait ⟨.object c, timeout⟩) :=
    Function.update_self _ _ _
  have phase : (s.park ⟨.object c, timeout⟩).view.phase = s.view.phase :=
    (congrArg Point.phase at_).trans idle.symm
  rw [View.mk.injEq]
  exact ⟨rfl, phase, rfl, rfl, rfl, sleeping⟩

theorem Eh.leaveWait_other (calm : s.sched.state s.self ≠ .wait)
    (idle : (s.point s.self).phase = .idle) (other : ∀ c, w.caller ≠ .object c) {ret : Int} :
    (s.leaveWait sys w ret).view = s.view := by
  have phase : (if w.timed then Point.waitEnd w ret else .returned w ret :
      Point T P C A).phase = (s.point s.self).phase := by
    rw [idle]
    obtain ⟨caller, timeout⟩ := w
    split
    all_goals
      cases caller with
      | join u => rfl
      | object c => exact absurd rfl (other c)
      | epoll q n => rfl
  refine view_same rfl rfl calm calm (fun _ _ => .rfl) phase rfl rfl fun o => ?_
  obtain ⟨caller, timeout⟩ := w
  cases caller with
  | join u => simp [Wait.event, Events.removeReceptor]
  | object c => exact absurd rfl (other c)
  | epoll q n => rfl

omit [DecidableEq O] in
theorem Eh.park_other (calm : s.sched.state s.self ≠ .wait)
    (idle : (s.point s.self).phase = .idle) (other : ∀ c, w.caller ≠ .object c) :
    (s.park w).view = s.view := by
  have at_ : (s.park w).point s.self = .next (.wait w) := Function.update_self _ _ _
  have sleeping : (s.park w).view.sleeping = s.view.sleeping := by
    funext t
    by_cases eq : t = s.self
    · subst eq
      rw [sleeping_of_ne calm]
      apply sleeping_of_calm
      rw [at_]
      obtain ⟨caller, timeout⟩ := w
      cases caller with
      | join u => rfl
      | object c => exact absurd rfl (other c)
      | epoll q n => rfl
    · apply sleeping_congr
      · simp [Asleep, park, setPoint, eq]
      · rw [park, Eh.point_setPoint, Function.update_of_ne eq]
  have queue : (s.park w).view.queue = s.view.queue := by
    obtain ⟨caller, timeout⟩ := w
    cases caller <;> rfl
  have phase : (s.park w).view.phase = s.view.phase :=
    (congrArg Point.phase at_).trans idle.symm
  rw [View.mk.injEq]
  exact ⟨rfl, phase, rfl, rfl, queue, sleeping⟩

theorem Eh.check_other (sys : System T O W C A) (s : Eh T O P W C A) (other : ∀ c, w.caller ≠ .object c) :
    (s.check sys w).2.view = s.view ∧ (s.check sys w).2.sched = s.sched ∧
      (s.check sys w).2.point = s.point := by
  obtain ⟨caller, timeout⟩ := w
  rw [check]
  cases caller with
  | join u =>
    dsimp only [condition]
    split
    · exact ⟨rfl, rfl, rfl⟩
    · split <;> exact ⟨rfl, rfl, rfl⟩
  | object c => exact absurd rfl (other c)
  | epoll q n =>
    have read := (readPending_frame q s.events (s.events.epoll q).pending n).1
    have seen : ({ s with events := (s.events.ehEpollPendingReadOnLock q n).2 } :
        Eh T O P W C A).view = s.view := by
      have queue : ({ s with events := (s.events.ehEpollPendingReadOnLock q n).2 } :
        Eh T O P W C A).view.queue = s.view.queue := funext fun o => congrFun read _
      rw [View.mk.injEq]
      exact ⟨rfl, rfl, rfl, rfl, queue, rfl⟩
    dsimp only
    split <;> exact ⟨seen, rfl, rfl⟩

theorem Eh.loopWait_steps (h : Invariant sys s) (at_ : s.point s.self = .waitLoop w) :
    View.Steps sys (if (s.events.flags (.wait s.self)).error then none else w.on) s.view
      (s.loopWait sys w).view := by
  have calm := h.calm at_ (by simp [Point.admits])
  have idle : (s.point s.self).phase = .idle := by rw [at_]; rfl
  have running : s.view.Running := ⟨idle, sleeping_of_ne calm⟩
  by_cases object : ∃ c, w.caller = .object c
  · obtain ⟨c, caller⟩ := object
    obtain ⟨_, timeout⟩ := w
    subst caller
    have checked := check_object sys s c timeout
    rw [loopWait]
    generalize s.check sys ⟨.object c, timeout⟩ = result at checked
    cases checked with
    | met quiet tested =>
      dsimp only
      rw [leaveWait_object (by exact calm), quiet]
      exact .met rfl (.met running tested)
    | triggered plain =>
      dsimp only
      rw [leaveWait_object calm]
      exact .single (.triggered running plain)
    | refused tested verdict =>
      dsimp only
      rw [leaveWait_object (by exact calm)]
      exact .single (.refused running tested verdict)
    | failed err =>
      have out : ∀ o, .wait s.self ∉ s.view.queue o := fun o mem => by
        have clear := (h.event.task s.self).clear mem
        rw [err] at clear
        cases clear
      dsimp only
      rw [leaveWait_object calm, View.leave_of_not_mem (out _)]
      exact .single (.failed running out)
    | waits tested quiet =>
      have listed := (h.event.task s.self).listed h.sched.live (by rw [at_]; rfl) rfl
      have queued := listed.resolve_right (by simp [quiet])
      dsimp only
      rw [park_object (by exact h.sched.live) (by exact idle)]
      exact .single (.park running tested queued)
  · have other : ∀ c, w.caller ≠ .object c := fun c eq => object ⟨c, eq⟩
    obtain ⟨seen, sched, point⟩ := check_other sys s other
    have self : (s.check sys w).2.self = s.self := congrArg Sched.currentTask sched
    have calm' : (s.check sys w).2.sched.state (s.check sys w).2.self ≠ .wait := by
      rwa [sched, self]
    have idle' : ((s.check sys w).2.point (s.check sys w).2.self).phase = .idle := by
      rwa [point, self]
    apply View.Steps.of_eq
    rw [← seen, loopWait]
    split
    · next ret s' eq =>
      rw [eq] at calm' idle' ⊢
      exact leaveWait_other calm' idle' other
    · next s' eq =>
      rw [eq] at calm' idle' ⊢
      exact park_other calm' idle' other

theorem Eh.signal_step (own : Owned s) (g : Signal (EhEvent T O)) :
    View.Step sys s.view none (s.signal g).view := by
  have st := signal_stirred own g
  have elsewhere : (∀ o, (s.signal g).events.receptors (.object o) =
      s.events.receptors (.object o)) → View.Step sys s.view none (s.signal g).view :=
    wakes st (by cases g <;> rfl) (by cases g <;> rfl)
  have object : ∀ g' : Signal O, g = g'.map .object →
      View.Step sys s.view none (s.signal g).view := by
    rintro g' rfl
    obtain ⟨seen, woken⟩ := signal_object own g'
    rw [seen]
    exact .signal woken
  cases g with
  | notify e =>
    cases e with
    | object o => exact object (.notify o) rfl
    | task u => exact elsewhere fun o => congrFun (Events.ehEventNotify_receptors _ _) _
    | timer u => exact elsewhere fun o => congrFun (Events.ehEventNotify_receptors _ _) _
  | notifyAndReorder e num =>
    have moved := s.events.ehEventNotifyAndReorder_receptors e num
    cases e with
    | object o => exact object (.notifyAndReorder o num) rfl
    | task u => exact elsewhere fun o => (congrFun moved _).trans (update_elsewhere _ (by simp) _ o)
    | timer u => exact elsewhere fun o => (congrFun moved _).trans (update_elsewhere _ (by simp) _ o)
  | clean e =>
    have cleaned := s.events.ehEventClean_receptors e
    cases e with
    | object o => exact object (.clean o) rfl
    | task u =>
      refine elsewhere fun o => (congrFun cleaned _).trans (update_elsewhere _ (by simp) _ o)
    | timer u =>
      refine elsewhere fun o => (congrFun cleaned _).trans (update_elsewhere _ (by simp) _ o)

omit [DecidableEq O] [DecidableEq P] in
theorem Stirred.calm (st : Stirred s s') {t : T} (h : s.sched.state t ≠ .wait) :
    s'.sched.state t ≠ .wait := by
  rcases st.state t with same | ⟨waits, -⟩
  · rwa [same]
  · exact absurd waits h

theorem Eh.signalThen_steps (own : Owned s) (g : Signal (EhEvent T O))
    (calm : s.sched.state s.self ≠ .wait) (phase : p.phase = (s.point s.self).phase) :
    View.Steps sys tests s.view ((s.signal g).setPoint s.self p).view := by
  have st := signal_stirred own g
  have calm' := st.calm calm
  have step : View.Step sys s.view none (s.signal g).view := signal_step own g
  have phase' : p.phase = ((s.signal g).point (s.signal g).self).phase := by
    rw [st.point, st.currentTask, phase]
  have same : ((s.signal g).setPoint (s.signal g).self p).view = (s.signal g).view := by
    rw [← st.currentTask] at calm'
    exact view_same rfl rfl calm' calm' (fun _ _ => .rfl) phase' rfl rfl fun _ => rfl
  rw [st.currentTask] at same
  rw [same]
  exact .single step

theorem Eh.signalNext_steps (own : Owned s) (g : Signal (EhEvent T O))
    (phase : p.phase = (s.point s.self).phase) (waits : p.waitsOn = (s.point s.self).waitsOn) :
    View.Steps sys tests s.view ((s.signal g).setPoint s.self p).view := by
  have st := signal_stirred own g
  have step : View.Step sys s.view none (s.signal g).view := signal_step own g
  have phase' : p.phase = ((s.signal g).point (s.signal g).self).phase := by
    rw [st.point, st.currentTask, phase]
  have waits' : p.waitsOn = ((s.signal g).point (s.signal g).self).waitsOn := by
    rw [st.point, st.currentTask, waits]
  have same : ((s.signal g).setPoint (s.signal g).self p).view = (s.signal g).view :=
    view_next rfl rfl (fun _ => .rfl) phase' waits' rfl rfl fun _ => rfl
  rw [st.currentTask] at same
  rw [same]
  exact .single step

theorem Eh.afterWait_steps (h : Invariant sys s) {ret : Int}
    (at_ : s.point s.self = .returned w ret) :
    View.Steps sys tests s.view (s.afterWait sys w ret).view := by
  have calm := h.calm at_ (by simp [Point.admits])
  obtain ⟨caller, timeout⟩ := w
  rw [afterWait]
  cases caller with
  | join u =>
    have idle : (s.point s.self).phase = .idle := by rw [at_]; rfl
    dsimp only
    split
    · apply View.Steps.of_eq
      exact view_same rfl rfl calm calm (fun _ _ => .rfl) idle.symm rfl rfl fun _ => rfl
    · exact signalThen_steps h.event.owned _ calm idle.symm
  | object c =>
    have phase : s.view.phase = .verdict c ret := by
      rw [view]
      dsimp only
      rw [at_]
      rfl
    have seen : ({ s with world := sys.finish c s.self ret s.world }.setPoint s.self
        (.user : Point T P C A)).view = _ := view_setPoint rfl rfl calm calm fun _ _ => .rfl
    dsimp only
    rw [seen]
    exact .single (.finish phase)
  | epoll q n =>
    have idle : (s.point s.self).phase = .idle := by rw [at_]; rfl
    apply View.Steps.of_eq
    exact view_same rfl rfl calm calm (fun _ _ => .rfl) idle.symm rfl rfl fun _ => rfl

theorem Eh.endWait_view (h : Invariant sys s) {ret : Int}
    (at_ : s.point s.self = .waitEnd w ret) : (s.endWait w ret).view = s.view := by
  have calm := h.calm at_ (by simp [Point.admits])
  refine view_same rfl rfl calm calm (fun _ _ => .rfl) ?_ rfl rfl fun o => ?_
  · rw [at_]
    rfl
  · simp [Events.removeReceptor]

end Steps

end EventHub.Kernel
