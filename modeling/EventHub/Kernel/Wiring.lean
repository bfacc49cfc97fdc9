import EventHub.Event.Wires
import EventHub.Kernel.Scheduling

/-! The links of the receptors in memory. Each step comes with the edits of the lists that its
code makes, and these leave every list as the receptors of the events say. -/

namespace EventHub.Kernel
open Library Event

abbrev EhNode (T O P : Type) := WireNode (EhEvent T O) T P

section Code
variable {T O P W C A : Type} [DecidableEq T] [DecidableEq O] [DecidableEq P]

namespace Eh

def signalEdits (s : Eh T O P W C A) : Signal (EhEvent T O) → List (LinkEdit (EhNode T O P))
  | .notify _ => []
  | .notifyAndReorder e num =>
    match (s.events.reordered e num).getLast? with
    | none => []
    | some r => [.move (.head e) (.receptor r)]
  | .clean e => (s.events.receptors e).map fun r => .delInit (.receptor r)

def actEdits (sys : System T O W C A) (s : Eh T O P W C A) (a : A) :
    List (LinkEdit (EhNode T O P)) :=
  match (sys.act a s.self s.world).signal with
  | none => []
  | some g => s.signalEdits (g.map .object)

/-- The receptors of a wait with a timer are set up, and that of the timer is linked. -/
def timerEdits (t : T) (w : Wait T P C) : List (LinkEdit (EhNode T O P)) :=
  (match w.caller with
    | .epoll _ _ => []
    | .join _ | .object _ => [.alone (.receptor (.wait t))]) ++
  [.alone (.receptor (.timer t)), .alone (.head (.timer t)),
    .addTail (.receptor (.timer t)) (.head (.timer t))]

/-- `receptor` is linked, and set up before if the wait has no timer. -/
def addEdits (sys : System T O W C A) (t : T) (w : Wait T P C) : List (LinkEdit (EhNode T O P)) :=
  match w.event sys with
  | some e =>
    (if w.timed then [] else [.alone (.receptor (.wait t))]) ++
      [.addTail (.receptor (.wait t)) (.head e)]
  | none => []

/-- `receptor` is unlinked when the loop is left. -/
def leaveEdits (sys : System T O W C A) (s : Eh T O P W C A) (w : Wait T P C) :
    List (LinkEdit (EhNode T O P)) :=
  match (s.check sys w).1, w.event sys with
  | some _, some _ => [.delInit (.receptor (.wait s.self))]
  | _, _ => []

def goEdits (sys : System T O W C A) (s : Eh T O P W C A) :
    Point T P C A → List (LinkEdit (EhNode T O P))
  | .acting a => s.actEdits sys a
  | .waitTimer w => timerEdits s.self w
  | .waitAdd w => addEdits sys s.self w
  | .waitLoop w => s.leaveEdits sys w
  | .waitEnd _ _ => [.delInit (.receptor (.timer s.self))]
  | .returned w ret =>
    match w.caller with
    | .join u => if ret < 0 then [] else s.signalEdits (.clean (.task u))
    | .object _ | .epoll _ _ => []
  | .poll (.destroy (.task u) _) _ _ => s.signalEdits (.clean (.task u))
  | _ => []

def edits (sys : System T O W C A) (s : Eh T O P W C A) :
    Label T O P C A → List (LinkEdit (EhNode T O P))
  | .go => s.goEdits sys (s.point s.self)
  | .act a => s.actEdits sys a
  | .create t _ _ => [.alone (.head (.task t))]
  | .epollAdd p e =>
    if s.registered p e then []
    else [.alone (.receptor (.epoll p e)), .addTail (.receptor (.epoll p e)) (.head e)]
  | .epollDel p e => if s.registered p e then [.delInit (.receptor (.epoll p e))] else []
  | .signal g => s.signalEdits g
  | .interrupt a => s.actEdits sys a
  | .interruptGo i =>
    match s.calls[i]? with
    | some a => s.actEdits sys a
    | none => []
  | _ => []

end Eh

structure Wired (T O P W C A : Type) where
  eh : Eh T O P W C A
  links : Links (EhNode T O P)

namespace Wired

def step (sys : System T O W C A) (x : Wired T O P W C A) (l : Label T O P C A) :
    Option (Wired T O P W C A) :=
  (x.eh.step sys l).map fun eh => ⟨eh, LinkEdit.applyAll x.links (x.eh.edits sys l)⟩

def init (main : T) (world : W) : Wired T O P W C A := ⟨.init main world, ⟨id, id⟩⟩

def Reachable (sys : System T O W C A) (main : T) (world : W) (x : Wired T O P W C A) : Prop :=
  ∃ ls, Run (fun x l y => step sys x l = some y) (init main world) ls x

end Wired

end Code

variable {T O P W C A : Type} {sys : System T O W C A} {s s' : Eh T O P W C A}
  {m : Links (EhNode T O P)} {l : Label T O P C A}

def Eh.TimersApart (s : Eh T O P W C A) : Prop := ∀ p t, s.registered p (.timer t) = false

theorem timer_unlinked (inv : Invariant sys s) (timers : s.TimersApart)
    (timing : (s.point s.self).timing = false) : s.events.receptors (.timer s.self) = [] := by
  rw [List.eq_nil_iff_forall_not_mem]
  intro r mem
  cases r with
  | wait u =>
    obtain ⟨-, w, -, event⟩ := (inv.event.task u).wait mem
    exact Wait.event_ne_timer w s.self event
  | timer u =>
    obtain ⟨live, timed, eq⟩ := (inv.event.task u).timer mem
    cases eq
    rw [timing] at timed
    cases timed
  | epoll p x =>
    obtain ⟨rfl, registered⟩ := inv.event.epoll mem
    rw [timers] at registered
    cases registered

theorem wait_only (inv : Invariant sys s) {t : T} {w : Wait T P C} {e : EhEvent T O}
    (waits : (s.point t).waits = some w) (event : w.event sys = some e) (x : EhEvent T O)
    (mem : .wait t ∈ s.events.receptors x) : x = e := by
  obtain ⟨-, w', waits', event'⟩ := (inv.event.task t).wait mem
  rw [waits] at waits'
  cases waits'
  rw [event] at event'
  cases event'
  rfl

variable [DecidableEq T]

theorem startWait_frame (w : Wait T P C) :
    (s.startWait w).events = s.events ∧ (s.startWait w).registered = s.registered := by
  rw [Eh.startWait]
  split_ifs <;> exact ⟨rfl, rfl⟩

theorem continueAt_frame {k : After T P C} (step : s.continueAt k = some s') :
    s'.events = s.events ∧ s'.registered = s.registered := by
  cases k with
  | finished => cases step
  | _ =>
    cases step
    exact ⟨rfl, rfl⟩

variable [DecidableEq O] [DecidableEq P]

theorem wires_signal (h : Wires m s.events.receptors) (nodup : ∀ e, (s.events.receptors e).Nodup)
    (g : Signal (EhEvent T O)) :
    Wires (LinkEdit.applyAll m (s.signalEdits g)) (s.signal g).events.receptors := by
  cases g with
  | notify e =>
    have same : (s.signal (.notify e)).events.receptors = s.events.receptors :=
      s.events.ehEventNotify_receptors e
    rw [same]
    exact h
  | clean e =>
    have same : (s.signal (.clean e)).events.receptors =
        Function.update s.events.receptors e [] := s.events.ehEventClean_receptors e
    rw [same]
    exact h.clean (nodup e)
  | notifyAndReorder e num =>
    have same : (s.signal (.notifyAndReorder e num)).events.receptors =
        Function.update s.events.receptors e
          ((s.events.receptors e).drop num.toNat ++ (s.events.receptors e).take num.toNat) :=
      s.events.ehEventNotifyAndReorder_receptors e num
    rw [same, Eh.signalEdits, Events.reordered]
    cases last : ((s.events.receptors e).take num.toNat).getLast? with
    | none =>
      have none := List.getLast?_eq_none_iff.mp last
      have all : (s.events.receptors e).drop num.toNat = s.events.receptors e := by
        have whole := List.take_append_drop num.toNat (s.events.receptors e)
        rwa [none, List.nil_append] at whole
      rw [none, all, List.append_nil, Function.update_eq_self]
      exact h
    | some r =>
      obtain ⟨before, taken⟩ := List.getLast?_eq_some_iff.mp last
      have whole := List.take_append_drop num.toNat (s.events.receptors e)
      rw [taken] at whole ⊢
      exact h.reorder (whole.symm.trans (List.append_assoc before [r] _))

theorem wires_act (h : Wires m s.events.receptors) (nodup : ∀ e, (s.events.receptors e).Nodup)
    (a : A) : Wires (LinkEdit.applyAll m (s.actEdits sys a)) (s.perform sys a).events.receptors := by
  rw [Eh.actEdits, Eh.perform]
  cases (sys.act a s.self s.world).signal with
  | none => exact h
  | some g =>
    exact wires_signal (s := { s with world := (sys.act a s.self s.world).world }) h nodup
      (g.map .object)

theorem wires_startTimer (inv : Invariant sys s) (timers : s.TimersApart)
    (h : Wires m s.events.receptors) {w : Wait T P C} (at_ : s.point s.self = .waitTimer w) :
    Wires (LinkEdit.applyAll m (Eh.timerEdits s.self w)) (s.startTimer w).events.receptors := by
  have noWait := inv.event.not_wait (t := s.self) (by rw [at_]; rfl)
  have noTimer := inv.event.not_timer (t := s.self) (by rw [at_]; rfl)
  have empty := timer_unlinked inv timers (by rw [at_]; rfl)
  have added := h.add (e := .timer s.self) noTimer
  rw [empty, List.nil_append] at added
  have same : LinkEdit.applyAll m (Eh.timerEdits (C := C) s.self w) =
      m.addTail (.receptor (.timer s.self)) (.head (.timer s.self)) := by
    have first := h.aloneReceptor noWait
    have second := h.aloneReceptor noTimer
    have third := h.aloneHead empty
    rw [Eh.timerEdits]
    cases w.caller with
    | epoll q n => simp [LinkEdit.applyAll, LinkEdit.apply, second, third]
    | _ => simp [LinkEdit.applyAll, LinkEdit.apply, first, second, third]
  rw [same]
  exact added

theorem wires_linkReceptor (inv : Invariant sys s) (h : Wires m s.events.receptors)
    {w : Wait T P C} (at_ : s.point s.self = .waitAdd w) :
    Wires (LinkEdit.applyAll m (Eh.addEdits sys s.self w))
      (s.linkReceptor sys w).events.receptors := by
  have noWait := inv.event.not_wait (t := s.self) (by rw [at_]; rfl)
  rw [Eh.addEdits, Eh.linkReceptor]
  cases w.event sys with
  | none => exact h
  | some e =>
    have same : LinkEdit.applyAll m ((if w.timed then [] else
        [.alone (.receptor (.wait s.self))]) ++ [.addTail (.receptor (.wait s.self)) (.head e)]) =
        m.addTail (.receptor (.wait s.self)) (.head e) := by
      cases w.timed <;> simp [LinkEdit.applyAll, LinkEdit.apply, h.aloneReceptor noWait]
    rw [same]
    exact h.add noWait

theorem check_receptors (sys : System T O W C A) (s : Eh T O P W C A) (w : Wait T P C) :
    (s.check sys w).2.events.receptors = s.events.receptors := by
  obtain ⟨caller, timeout⟩ := w
  rw [Eh.check]
  cases caller with
  | epoll q n =>
    dsimp only
    split <;> exact (readPending_frame q s.events _ n).1
  | join u =>
    dsimp only [Eh.condition]
    split_ifs <;> rfl
  | object c =>
    dsimp only
    split
    · split_ifs <;> rfl
    · split_ifs <;> rfl

theorem loopWait_receptors (sys : System T O W C A) (s : Eh T O P W C A) (w : Wait T P C) :
    (s.loopWait sys w).events.receptors =
      match (s.check sys w).1, w.event sys with
      | some _, some e =>
        Function.update s.events.receptors e ((s.events.receptors e).erase (.wait s.self))
      | _, _ => s.events.receptors := by
  have same := check_receptors sys s w
  have self := (check_sched sys s w).1
  rw [Eh.loopWait]
  cases checked : s.check sys w with
  | mk result x =>
    rw [checked] at same self
    dsimp only at same self ⊢
    have at' : x.self = s.self := by rw [Eh.self, self]
    cases result with
    | none =>
      change (x.park w).events.receptors = s.events.receptors
      rw [← same, Eh.park]
      cases w.caller <;> rfl
    | some ret =>
      cases event : w.event sys with
      | none =>
        change (x.leaveWait sys w ret).events.receptors = s.events.receptors
        rw [← same, Eh.leaveWait]
        cases w.caller with
        | epoll q n => rfl
        | join u => rw [event]; rfl
        | object c => rw [event]; rfl
      | some e =>
        dsimp only
        rw [← same, ← at', Eh.leaveWait]
        cases caller : w.caller with
        | epoll q n =>
          rw [Wait.event, caller] at event
          cases event
        | join u => rw [event]; rfl
        | object c => rw [event]; rfl

theorem wires_loopWait (inv : Invariant sys s) (h : Wires m s.events.receptors)
    {w : Wait T P C} (at_ : s.point s.self = .waitLoop w) :
    Wires (LinkEdit.applyAll m (s.leaveEdits sys w)) (s.loopWait sys w).events.receptors := by
  rw [Eh.leaveEdits, loopWait_receptors]
  cases (s.check sys w).1 with
  | none => exact h
  | some ret =>
    cases event : w.event sys with
    | none => exact h
    | some e => exact h.delInit (inv.event.nodup e) (wait_only inv (by rw [at_]; rfl) event)

theorem wires_endWait (inv : Invariant sys s) (h : Wires m s.events.receptors) (w : Wait T P C)
    (ret : Int) :
    Wires (m.delInit (.receptor (.timer s.self))) (s.endWait w ret).events.receptors :=
  h.delInit (inv.event.nodup _) fun _ mem => ((inv.event.task s.self).timer mem).2.2

theorem wires_pollStep (inv : Invariant sys s) (h : Wires m s.events.receptors)
    {pp : PollPoint T} {idle : Bool} {k : After T P C} (step : s.pollStep idle k pp = some s') :
    Wires (LinkEdit.applyAll m (s.goEdits sys (.poll pp idle k))) s'.events.receptors := by
  have loop : ∀ (x : Eh T O P W C A) (pos : Node T),
      (x.autoDestruct pos idle k).events = x.events := by
    intro x pos
    rw [Eh.autoDestruct]
    split <;> rfl
  cases pp with
  | start =>
    rw [Eh.pollStep] at step
    split at step
    · cases step
      rw [loop]
      exact h
    · cases step
      exact h
  | destroy pos n =>
    cases pos with
    | task u =>
      cases step
      exact wires_signal h inv.event.nodup (.clean (.task u))
    | _ => cases step
  | unlink pos n =>
    cases pos with
    | task u =>
      cases step
      rw [loop]
      exact h
    | _ => cases step

theorem wires_afterWait (inv : Invariant sys s) (h : Wires m s.events.receptors) (w : Wait T P C)
    (ret : Int) :
    Wires (LinkEdit.applyAll m (s.goEdits sys (.returned w ret)))
      (s.afterWait sys w ret).events.receptors := by
  obtain ⟨caller, timeout⟩ := w
  rw [Eh.afterWait, Eh.goEdits]
  cases caller with
  | join u =>
    dsimp only
    split
    · exact h
    · exact wires_signal h inv.event.nodup (.clean (.task u))
  | _ => exact h

theorem wires_go (inv : Invariant sys s) (timers : s.TimersApart)
    (h : Wires m s.events.receptors) (step : s.go sys = some s') :
    Wires (LinkEdit.applyAll m (s.goEdits sys (s.point s.self))) s'.events.receptors := by
  rw [Eh.go] at step
  split at step
  · next at_ =>
    cases step
    rw [at_]
    exact h
  · cases step
  · next a at_ =>
    cases step
    rw [at_]
    exact wires_act h inv.event.nodup a
  · next at_ =>
    cases step
    rw [at_]
    exact wires_startTimer inv timers h at_
  · next at_ =>
    cases step
    rw [at_]
    exact wires_linkReceptor inv h at_
  · next at_ =>
    cases step
    rw [at_]
    exact wires_loopWait inv h at_
  · next w ret at_ =>
    cases step
    rw [at_]
    exact wires_endWait inv h w ret
  · next w ret at_ =>
    cases step
    rw [at_]
    exact wires_afterWait inv h w ret
  · next at_ =>
    cases step
    rw [at_]
    exact h
  · next at_ =>
    cases step
    rw [at_]
    exact wires_signal h inv.event.nodup (.notify (.task s.self))
  · next at_ =>
    cases step
    rw [at_, Eh.nextStep]
    split <;> exact h
  · next at_ =>
    rw [at_]
    exact wires_pollStep inv h step
  · next at_ =>
    rw [at_]
    rw [Eh.dispatch] at step
    split at step
    · cases step
      exact h
    · split at step
      · cases step
        exact h
      · cases step
  · next at_ =>
    rw [at_]
    rw [Eh.idleCheck] at step
    split at step
    · rw [(continueAt_frame step).1]
      exact h
    · cases step
      exact h
  · next at_ =>
    rw [at_, (continueAt_frame step).1]
    exact h

theorem enter_frame (sys : System T O W C A) (s : Eh T O P W C A) (w : Wait T P C) :
    (s.enter sys w).events.receptors = s.events.receptors ∧
      (s.enter sys w).registered = s.registered := by
  have starts : ∀ (x : Eh T O P W C A) (v : Wait T P C), x.events = s.events →
      x.registered = s.registered → (x.startWait v).events.receptors = s.events.receptors ∧
        (x.startWait v).registered = s.registered := by
    intro x v events registered
    obtain ⟨sameE, sameR⟩ := startWait_frame (s := x) v
    rw [sameE, sameR, events]
    exact ⟨rfl, registered⟩
  obtain ⟨caller, timeout⟩ := w
  rw [Eh.enter]
  cases caller with
  | epoll q n =>
    dsimp only
    split
    · exact ⟨rfl, rfl⟩
    · split
      · exact ⟨rfl, rfl⟩
      · exact ⟨(readPending_frame q s.events _ n).1, rfl⟩
  | join u =>
    dsimp only [Eh.condition]
    by_cases finished : s.sched.state u = .finish
    · simp only [finished, decide_true]
      exact ⟨rfl, rfl⟩
    · simp only [finished, decide_false]
      exact starts _ _ rfl rfl
  | object c =>
    dsimp only
    split
    · exact ⟨rfl, rfl⟩
    · exact starts _ _ rfl rfl
    · exact starts _ _ rfl rfl

theorem wires_create (inv : Invariant sys s) (h : Wires m s.events.receptors) {t : T}
    (dead : ¬ s.alive t = true) (system auto : Bool) :
    Wires (m.alone (.head (.task t))) (s.create t system auto).events.receptors := by
  have empty : s.events.receptors (.task t) = [] := by
    rw [List.eq_nil_iff_forall_not_mem]
    exact fun r mem => dead (inv.event.event mem)
  have same : (s.create t system auto).events.receptors = s.events.receptors :=
    Function.update_eq_self_iff.mpr empty.symm
  rw [same, h.aloneHead empty]
  exact h

theorem wires_epollAdd (inv : Invariant sys s) (h : Wires m s.events.receptors) (q : P)
    (e : EhEvent T O) :
    Wires (LinkEdit.applyAll m (s.edits sys (.epollAdd q e)))
      (s.ehEpollAddEvent q e).events.receptors := by
  rw [Eh.edits, Eh.ehEpollAddEvent]
  split
  · exact h
  · next new =>
    have out : ∀ x, .epoll q e ∉ s.events.receptors x := by
      intro x mem
      obtain ⟨rfl, registered⟩ := inv.event.epoll mem
      exact new registered
    simp only [LinkEdit.applyAll, List.foldl_cons, List.foldl_nil, LinkEdit.apply,
      h.aloneReceptor out]
    exact h.add out

theorem wires_epollDel (inv : Invariant sys s) (h : Wires m s.events.receptors) (q : P)
    (e : EhEvent T O) :
    Wires (LinkEdit.applyAll m (s.edits sys (.epollDel q e)))
      (s.ehEpollDelEvent q e).events.receptors := by
  rw [Eh.edits, Eh.ehEpollDelEvent]
  split
  · exact h.delInit (inv.event.nodup e) fun x mem => (inv.event.epoll mem).1.symm
  · exact h

theorem wires_user (inv : Invariant sys s) (h : Wires m s.events.receptors)
    (step : s.user sys l = some s') :
    Wires (LinkEdit.applyAll m (s.edits sys l)) s'.events.receptors := by
  cases Eh.user_cases step with
  | @wait w =>
    rw [(enter_frame sys s w).1]
    exact h
  | @act a => exact wires_act h inv.event.nodup a
  | create system auto dead => exact wires_create inv h (by simpa using dead) system auto
  | yield => exact h
  | ret => exact h
  | exitMain => exact h
  | exit =>
    exact wires_signal (s := { s with sched := s.sched.setState s.self .finish }) h
      inv.event.nodup (.notify (.task s.self))
  | @epollAdd q e => exact wires_epollAdd inv h q e
  | epollDel q e => exact wires_epollDel inv h q e

theorem wires_step (inv : Invariant sys s) (timers : s.TimersApart)
    (h : Wires m s.events.receptors) (step : s.step sys l = some s') :
    Wires (LinkEdit.applyAll m (s.edits sys l)) s'.events.receptors := by
  cases Eh.step_cases step with
  | go step => exact wires_go inv timers h step
  | user at_ step => exact wires_user inv h step
  | signal g => exact wires_signal h inv.event.nodup g
  | wakeUp live => exact h
  | expire t =>
    have same : (s.expire t).events.receptors = s.events.receptors := by
      rw [Eh.expire]
      split
      · exact s.events.ehEventNotify_receptors _
      · rfl
    rw [same]
    exact h
  | interrupt => exact wires_act h inv.event.nodup _
  | interruptGo at_ =>
    rw [Eh.edits, at_]
    exact wires_act h inv.event.nodup _

theorem signal_registered (s : Eh T O P W C A) (g : Signal (EhEvent T O)) :
    (s.signal g).registered = s.registered := by
  cases g <;> rfl

theorem perform_registered (sys : System T O W C A) (s : Eh T O P W C A) (a : A) :
    (s.perform sys a).registered = s.registered := by
  rw [Eh.perform]
  cases (sys.act a s.self s.world).signal with
  | none => rfl
  | some g => exact signal_registered _ _

theorem go_registered (step : s.go sys = some s') : s'.registered = s.registered := by
  have loop : ∀ (x : Eh T O P W C A) (pos : Node T) (idle : Bool) (k : After T P C),
      (x.autoDestruct pos idle k).registered = x.registered := by
    intro x pos idle k
    rw [Eh.autoDestruct]
    split <;> rfl
  rw [Eh.go] at step
  split at step
  · cases step
    rfl
  · cases step
  · cases step
    exact perform_registered sys s _
  · cases step
    rfl
  · cases step
    rw [Eh.linkReceptor]
    split <;> rfl
  · next w _ =>
    cases step
    have checked := (check_stirred sys s w).registered
    rw [Eh.loopWait]
    cases result : s.check sys w with
    | mk ret x =>
      rw [result] at checked
      cases ret with
      | some ret => exact checked
      | none => exact checked
  · cases step
    rfl
  · next w ret _ =>
    cases step
    obtain ⟨caller, timeout⟩ := w
    rw [Eh.afterWait]
    cases caller with
    | join u =>
      dsimp only
      split
      · rfl
      · exact signal_registered s _
    | _ => rfl
  · cases step
    rfl
  · cases step
    exact signal_registered s _
  · cases step
    rw [Eh.nextStep]
    split <;> rfl
  · next pp idle k _ =>
    cases pp with
    | start =>
      rw [Eh.pollStep] at step
      split at step
      · cases step
        exact loop _ _ _ _
      · cases step
        rfl
    | destroy pos n =>
      cases pos with
      | task u =>
        cases step
        exact signal_registered s _
      | _ => cases step
    | unlink pos n =>
      cases pos with
      | task u =>
        cases step
        exact loop _ _ _ _
      | _ => cases step
  · rw [Eh.dispatch] at step
    split at step
    · cases step
      rfl
    · split at step
      · cases step
        rfl
      · cases step
  · rw [Eh.idleCheck] at step
    split at step
    · have frame := (continueAt_frame step).2
      exact frame
    · cases step
      rfl
  · have frame := (continueAt_frame step).2
    exact frame

theorem Eh.TimersApart.user (h : s.TimersApart) (step : s.user sys l = some s') :
    s'.TimersApart := by
  have same : s'.registered = s.registered → s'.TimersApart := fun eq p t => eq ▸ h p t
  cases Eh.user_cases step with
  | @wait w => exact same (enter_frame sys s w).2
  | @act a => exact same (perform_registered sys s a)
  | create => exact same rfl
  | yield => exact same rfl
  | ret => exact same rfl
  | exitMain => exact same rfl
  | exit => exact same rfl
  | @epollAdd q e ok =>
    intro p t
    rw [Eh.ehEpollAddEvent]
    split
    · exact h p t
    · have other : EhEvent.timer t ≠ e := by
        rintro rfl
        cases ok
      dsimp only
      rw [Function.update_apply]
      split
      · rw [Function.update_of_ne other]
        exact h q t
      · exact h p t
  | epollDel q e =>
    intro p t
    rw [Eh.ehEpollDelEvent]
    split
    · dsimp only
      rw [Function.update_apply]
      split
      · rw [Function.update_apply]
        split
        · rfl
        · exact h q t
      · exact h p t
    · exact h p t

theorem Eh.TimersApart.step (h : s.TimersApart) (step : s.step sys l = some s') :
    s'.TimersApart := by
  have same : s'.registered = s.registered → s'.TimersApart := fun eq p t => eq ▸ h p t
  cases Eh.step_cases step with
  | go step => exact same (go_registered step)
  | user at_ step => exact h.user step
  | signal g => exact same (signal_registered s g)
  | wakeUp live => exact same rfl
  | expire t =>
    apply same
    rw [Eh.expire]
    split <;> rfl
  | interrupt => exact same (perform_registered sys s _)
  | interruptGo at_ => exact same (perform_registered sys s _)

namespace Wired

structure Ok (sys : System T O W C A) (x : Wired T O P W C A) : Prop where
  inv : Invariant sys x.eh
  timers : x.eh.TimersApart
  wires : Wires x.links x.eh.events.receptors

variable {x y : Wired T O P W C A}

theorem Ok.step (h : x.Ok sys) (step : x.step sys l = some y) : x.eh.step sys l = some y.eh ∧
    y.links = LinkEdit.applyAll x.links (x.eh.edits sys l) ∧ y.Ok sys := by
  obtain ⟨eh, at_, rfl⟩ := Option.map_eq_some_iff.mp step
  exact ⟨at_, rfl, h.inv.step at_, h.timers.step at_, wires_step h.inv h.timers h.wires at_⟩

omit [DecidableEq O] [DecidableEq P] in
theorem init_ok (sys : System T O W C A) (main : T) (world : W) :
    (init main world : Wired T O P W C A).Ok sys where
  inv := .init sys main world
  timers _ _ := rfl
  wires := by
    refine ⟨⟨fun e => Links.ring_singleton.mpr ⟨rfl, rfl⟩, ?_⟩, fun r _ => ⟨rfl, rfl⟩⟩
    intro e e' n mem mem'
    have first : n = .head e := List.mem_singleton.mp mem
    have second : n = .head e' := List.mem_singleton.mp mem'
    rw [first] at second
    cases second
    rfl

theorem Reachable.ok {main : T} {world : W} (h : x.Reachable sys main world) : x.Ok sys := by
  obtain ⟨ls, run⟩ := h
  exact run.invariant (fun ok step => (ok.step step).2.2) (init_ok sys main world)

end Wired

end EventHub.Kernel
