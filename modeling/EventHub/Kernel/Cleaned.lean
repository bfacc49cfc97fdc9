import EventHub.Kernel.Wiring
import EventHub.Kernel.Frames

/-! The waits on an event that is cleaned. Each of them ends with an error, without another look
at its condition or at the event. -/

namespace EventHub.Kernel
open Library Event

def Signal.cleaned {E : Type} : Signal E → Option E
  | clean e => some e
  | notify _ | notifyAndReorder _ _ => none

section Code
variable {T O P W C A : Type}

/-- The event that `eh_event_clean` is called for in a part of a call. -/
def Eh.actCleans (sys : System T O W C A) (s : Eh T O P W C A) (a : A) : Option (EhEvent T O) :=
  (sys.act a s.self s.world).signal.bind fun g => (g.map .object).cleaned

def Eh.goCleans (sys : System T O W C A) (s : Eh T O P W C A) :
    Point T P C A → Option (EhEvent T O)
  | .acting a => s.actCleans sys a
  | .returned w ret =>
    match w.caller with
    | .join u => if ret < 0 then none else some (.task u)
    | .object _ | .epoll _ _ => none
  | .poll (.destroy (.task u) _) _ _ => some (.task u)
  | _ => none

/-- The event that `eh_event_clean` is called for in a step. -/
def Eh.cleans (sys : System T O W C A) (s : Eh T O P W C A) :
    Label T O P C A → Option (EhEvent T O)
  | .go => s.goCleans sys (s.point s.self)
  | .act a | .interrupt a => s.actCleans sys a
  | .interruptGo i => s.calls[i]?.bind (s.actCleans sys)
  | .signal g => g.cleaned
  | _ => none

def Wait.conditional (sys : System T O W C A) (w : Wait T P C) : Bool :=
  match w.caller with
  | .join _ => true
  | .object c => (sys.condition c).isSome
  | .epoll _ _ => false

def Eh.returns (s : Eh T O P W C A) (t : T) (l : Label T O P C A) : Prop :=
  l = .go ∧ s.self = t ∧ ∃ w ret, s.point t = .returned w ret

/-- The task is in the wait, which is to end with an event error, or has so ended. -/
def Eh.Failing (s : Eh T O P W C A) (t : T) (w : Wait T P C) : Prop :=
  (s.point t).waits = some w ∧ (s.events.flags (.wait t)).error = true ∨
    s.point t = .waitEnd w ehRetEventError ∨ s.point t = .returned w ehRetEventError

/-- The task is on its way out of the wait, or is to leave it at its next pass of the loop. -/
def Eh.Leaving (s : Eh T O P W C A) (t : T) (w : Wait T P C) : Prop :=
  (s.point t).waits = some w ∧ (s.events.flags (.wait t)).error = true ∨
    (∃ ret, s.point t = .waitEnd w ret) ∨
    ∃ ret, s.point t = .returned w ret ∧ ∀ u, w.joined = some u → ret < 0

/-- The next pass of the loop ends the wait, whatever the conditions, the shared data and the
tasks are: the test looks at nothing but the flags of `receptor`. -/
def Eh.Blind [DecidableEq T] [DecidableEq O] [DecidableEq P] (s : Eh T O P W C A) (t : T)
    (w : Wait T P C) : Prop :=
  ∀ (sys' : System T O W C A) (s' : Eh T O P W C A), w.conditional sys' = true → s'.self = t →
    s'.events.flags (.wait t) = s.events.flags (.wait t) →
      s'.check sys' w = (some ehRetEventError, s')

def onStack (t : T) (n : EhNode T O P) : Prop :=
  n = .receptor (.wait t) ∨ n = .receptor (.timer t) ∨ n = .head (.timer t)

end Code

variable {T O P W C A : Type} [DecidableEq T] [DecidableEq O] [DecidableEq P]
  {sys : System T O W C A} {s s' : Eh T O P W C A} {l : Label T O P C A} {t : T}
  {w : Wait T P C} {e : EhEvent T O}

/-! The clean. -/

omit [DecidableEq O] [DecidableEq P] in
theorem Signal.eq_clean {E : Type} {g : Signal E} {e : E} (h : g.cleaned = some e) :
    g = .clean e := by
  cases g <;> cases h
  rfl

theorem perform_cleans {a : A} (h : s.actCleans sys a = some e) :
    (s.perform sys a).events = s.events.ehEventClean e := by
  obtain ⟨g, signal, cleans⟩ := Option.bind_eq_some_iff.mp h
  rw [Eh.perform, signal]
  dsimp only
  rw [Signal.eq_clean cleans]
  rfl

theorem step_cleans (step : s.step sys l = some s') (cleans : s.cleans sys l = some e) :
    s'.events = s.events.ehEventClean e := by
  cases Eh.step_cases step with
  | go step =>
    rw [Eh.go] at step
    rw [Eh.cleans] at cleans
    cases at_ : s.point s.self with
    | acting a =>
      rw [at_] at step cleans
      cases step
      exact perform_cleans cleans
    | returned v ret =>
      obtain ⟨caller, timeout⟩ := v
      rw [at_] at step cleans
      cases caller with
      | join u =>
        simp only [Eh.goCleans] at cleans
        split at cleans
        · cases cleans
        · next ok =>
          cases cleans
          cases step
          rw [Eh.afterWait]
          dsimp only
          rw [if_neg ok]
          rfl
      | _ => cases cleans
    | poll pp idle k =>
      rw [at_] at step cleans
      cases pp with
      | destroy pos n =>
        cases pos with
        | task u =>
          cases cleans
          cases step
          rfl
        | _ => cases cleans
      | _ => cases cleans
    | _ =>
      rw [at_] at cleans
      cases cleans
  | user at_ step =>
    cases Eh.user_cases step with
    | act => exact perform_cleans cleans
    | _ => cases cleans
  | signal g =>
    rw [Signal.eq_clean cleans]
    rfl
  | wakeUp live => cases cleans
  | expire u => cases cleans
  | interrupt => exact perform_cleans cleans
  | @interruptGo i a at_ =>
    rw [Eh.cleans, at_] at cleans
    exact perform_cleans cleans

theorem Eh.Failing.of_cleans (inv : Invariant sys s) (step : s.step sys l = some s')
    (cleans : s.cleans sys l = some e) (live : s.alive t = true)
    (waits : (s.point t).waits = some w) (event : w.event sys = some e) :
    s'.Failing t w := by
  have error : (s'.events.flags (.wait t)).error = true := by
    rw [step_cleans step cleans, Events.ehEventClean, Events.foldl_clean_flags]
    split
    · rfl
    · next out => exact ((inv.event.task t).listed live waits event).resolve_left out
  refine .inl ⟨?_, error⟩
  by_cases own : l = .go ∧ t = s.self
  · obtain ⟨rfl, rfl⟩ := own
    refine (go_waits inv step waits fun at_ => ?_).1
    rw [Eh.cleans, at_] at cleans
    cases cleans
  · have away : l = .go → t ≠ s.self := fun go eq => own ⟨go, eq⟩
    have busy : s.point t ≠ .user := fun user => by
      rw [user] at waits
      cases waits
    rw [(step_aside inv live step away busy).point]
    exact waits

/-! The way out of the wait. -/

theorem check_error (conditional : w.conditional sys = true)
    (error : (s.events.flags (.wait s.self)).error = true) :
    s.check sys w = (some ehRetEventError, s) := by
  obtain ⟨caller, timeout⟩ := w
  rw [Eh.check]
  cases caller with
  | epoll q n => cases conditional
  | join u =>
    dsimp only [Eh.condition]
    rw [if_pos error]
  | object c =>
    obtain ⟨f, eq⟩ := Option.isSome_iff_exists.mp conditional
    simp only [Eh.condition, eq, Option.map_some]
    rw [if_pos error]

theorem Eh.Failing.go (h : s.Failing s.self w) (inv : Invariant sys s)
    (conditional : w.conditional sys = true) (step : s.go sys = some s')
    (stays : ∀ v ret, s.point s.self ≠ .returned v ret) : s'.Failing s.self w := by
  rcases h with ⟨waits, error⟩ | at_ | at_
  · by_cases at_ : s.point s.self = .waitLoop w
    · rw [Eh.go, at_] at step
      cases step
      rw [Eh.loopWait, check_error conditional error]
      right
      cases timed : w.timed with
      | true => exact .inl (by simp [Eh.leaveWait, Eh.setPoint, timed])
      | false => exact .inr (by simp [Eh.leaveWait, Eh.setPoint, timed])
    · obtain ⟨still, kept⟩ := go_waits inv step waits at_
      exact .inl ⟨still, kept error⟩
  · rw [Eh.go, at_] at step
    cases step
    exact .inr (.inr (setPoint_point _ _ _))
  · exact absurd at_ (stays w _)

omit [DecidableEq T] [DecidableEq O] [DecidableEq P] in
theorem Eh.Failing.busy (h : s.Failing t w) : s.point t ≠ .user := by
  intro user
  rcases h with ⟨waits, -⟩ | at_ | at_
  · rw [user] at waits
    cases waits
  · rw [user] at at_
    cases at_
  · rw [user] at at_
    cases at_

omit [DecidableEq T] [DecidableEq O] [DecidableEq P] in
theorem waits_unfinished (inv : Invariant sys s) (live : s.alive t = true)
    (waits : (s.point t).waits = some w) : t = s.self ∨ s.sched.state t ≠ .finish := by
  by_cases self : t = s.self
  · exact .inl self
  · right
    rcases Point.admits_waits (.inl waits) (inv.sched.state live self) with st | st | st <;>
      simp [st]

theorem Eh.Failing.alive (h : s.Failing t w) (inv : Invariant sys s) (live : s.alive t = true)
    (step : s.step sys l = some s') : s'.alive t = true := by
  refine step_alive inv step live ?_
  rcases h with ⟨waits, -⟩ | at_ | at_
  · exact waits_unfinished inv live waits
  · refine .inl (not_not.mp fun self => ?_)
    have parked := inv.sched.parked live self
    rw [at_] at parked
    cases parked
  · refine .inl (not_not.mp fun self => ?_)
    have parked := inv.sched.parked live self
    rw [at_] at parked
    cases parked

theorem Eh.Failing.step (h : s.Failing t w) (inv : Invariant sys s) (live : s.alive t = true)
    (conditional : w.conditional sys = true) (step : s.step sys l = some s')
    (stays : ¬ s.returns t l) : s'.Failing t w := by
  by_cases own : l = .go ∧ t = s.self
  · obtain ⟨rfl, rfl⟩ := own
    exact h.go inv conditional step fun v ret at_ => stays ⟨rfl, rfl, v, ret, at_⟩
  · have away : l = .go → t ≠ s.self := fun go eq => own ⟨go, eq⟩
    have aside := step_aside inv live step away h.busy
    rw [Eh.Failing, aside.point]
    exact h.imp (fun ⟨waits, error⟩ => ⟨waits, aside.error error⟩) fun left => left

/-! What the task touches on its way out. -/

omit [DecidableEq T] [DecidableEq O] [DecidableEq P] in
theorem timer_only (inv : Invariant sys s) (timers : s.TimersApart)
    {r : Receptor (EhEvent T O) T P} (mem : r ∈ s.events.receptors (.timer t)) :
    r = .timer t := by
  cases r with
  | wait u =>
    obtain ⟨-, v, -, event⟩ := (inv.event.task u).wait mem
    exact absurd event (Wait.event_ne_timer v t)
  | timer u =>
    cases ((inv.event.task u).timer mem).2.2
    rfl
  | epoll p x =>
    obtain ⟨rfl, registered⟩ := inv.event.epoll mem
    rw [timers] at registered
    cases registered

theorem timer_neighbours {m : Links (EhNode T O P)} (inv : Invariant sys s)
    (timers : s.TimersApart) (wires : Wires m s.events.receptors) (t : T) :
    onStack t (m.next (.receptor (.timer t))) ∧ onStack t (m.prev (.receptor (.timer t))) := by
  by_cases mem : .timer t ∈ s.events.receptors (.timer t)
  · have members : ∀ n ∈ wireNodes s.events.receptors (.timer t), onStack t n := by
      intro n memN
      rcases List.mem_cons.mp memN with rfl | memN
      · exact .inr (.inr rfl)
      · obtain ⟨r, memR, rfl⟩ := List.mem_map.mp memN
        exact .inr (.inl (congrArg WireNode.receptor (timer_only inv timers memR)))
    obtain ⟨before, after, split⟩ := List.append_of_mem (receptor_mem_wireNodes.mpr mem)
    have ring := wires.rings.ring (.timer t)
    rw [split] at ring members
    have turned := ring.rotate
    have back : ∀ n, n ∈ (.receptor (.timer t) :: after) ++ before → onStack t n := fun n memN =>
      members n (List.perm_append_comm.mem_iff.mp memN)
    exact ⟨back _ turned.next_mem, back _ turned.prev_mem⟩
  · have out : ∀ x, .timer t ∉ s.events.receptors x := fun x memX => by
      cases ((inv.event.task t).timer memX).2.2
      exact mem memX
    obtain ⟨next, prev⟩ := wires.alone _ out
    exact ⟨.inr (.inl next), .inr (.inl prev)⟩

omit [DecidableEq T] [DecidableEq O] [DecidableEq P] in
theorem Eh.Failing.leaving (h : s.Failing t w) : s.Leaving t w := by
  rcases h with waits | at_ | at_
  · exact .inl waits
  · exact .inr (.inl ⟨_, at_⟩)
  · exact .inr (.inr ⟨_, at_, fun _ _ => by decide⟩)

theorem Eh.Leaving.touched {m : Links (EhNode T O P)} (h : s.Leaving s.self w)
    (inv : Invariant sys s) (timers : s.TimersApart) (wires : Wires m s.events.receptors)
    (own : s.cleans sys .go = none) :
    ∀ n ∈ LinkEdit.touchedAll m (s.edits sys .go), onStack s.self n := by
  have one : ∀ x : EhNode T O P, ∀ n ∈ LinkEdit.touchedAll m [.delInit x],
      n = x ∨ n = m.next x ∨ n = m.prev x := by
    intro x n mem
    simpa [LinkEdit.touchedAll, LinkEdit.touched] using mem
  intro n mem
  rw [Eh.cleans] at own
  rw [Eh.edits] at mem
  rcases h with ⟨waits, error⟩ | ⟨ret, at_⟩ | ⟨ret, at_, negative⟩
  · cases at_ : s.point s.self with
    | waitLoop v =>
      rw [at_, Eh.goEdits, Eh.leaveEdits] at mem
      split at mem
      · have out : ∀ x, .wait s.self ∉ s.events.receptors x := fun x memX => by
          rw [(inv.event.task s.self).clear memX] at error
          cases error
        obtain ⟨next, prev⟩ := wires.alone _ out
        rcases one _ n mem with eq | eq | eq
        · exact .inl eq
        · exact .inl (eq.trans next)
        · exact .inl (eq.trans prev)
      · cases mem
    | poll pp idle k =>
      rw [at_] at mem own
      cases pp with
      | destroy pos node =>
        cases pos with
        | task u => cases own
        | _ => cases mem
      | _ => cases mem
    | next k =>
      rw [at_] at mem
      cases mem
    | nextLoop k =>
      rw [at_] at mem
      cases mem
    | nextCheck k =>
      rw [at_] at mem
      cases mem
    | resumed k =>
      rw [at_] at mem
      cases mem
    | _ =>
      rw [at_] at waits
      cases waits
  · obtain ⟨next, prev⟩ := timer_neighbours inv timers wires s.self
    rw [at_] at mem
    rcases one _ n mem with rfl | rfl | rfl
    · exact .inr (.inl rfl)
    · exact next
    · exact prev
  · rw [at_] at mem
    obtain ⟨caller, timeout⟩ := w
    cases caller with
    | join u =>
      simp only [Eh.goEdits] at mem
      rw [if_pos (negative u rfl)] at mem
      cases mem
    | _ => cases mem

/-- The waits on an event that is cleaned: each of them is awake and ends with an event error,
without another look at its condition, and without touching a link of the event. -/
theorem ehEventClean_waiters (sys : System T O W C A) (main : T) (world : W)
    (x y z : Wired T O P W C A) (l : Label T O P C A) (ls : List (Label T O P C A)) (t : T)
    (w : Wait T P C) (e : EhEvent T O) (reachable : x.Reachable sys main world)
    (step : x.step sys l = some y) (cleans : x.eh.cleans sys l = some e)
    (live : x.eh.alive t = true) (waits : (x.eh.point t).waits = some w)
    (event : w.event sys = some e) (conditional : w.conditional sys = true)
    (run : Run (fun a l b => a.step sys l = some b ∧ ¬ a.eh.returns t l) y ls z) :
    z.eh.Failing t w ∧
      ((z.eh.point t).waits = some w → z.eh.sched.state t ≠ .wait ∧ z.eh.Blind t w) ∧
      (z.eh.self = t → z.eh.cleans sys .go = none →
        ∀ n ∈ LinkEdit.touchedAll z.links (z.eh.edits sys .go), onStack t n) := by
  obtain ⟨first, -, okY⟩ := reachable.ok.step step
  have inv := reachable.ok.inv
  have failing := Eh.Failing.of_cleans inv first cleans live waits event
  have liveY := step_alive inv first live (waits_unfinished inv live waits)
  obtain ⟨ok, alive, fails⟩ : z.Ok sys ∧ z.eh.alive t = true ∧ z.eh.Failing t w := by
    refine run.invariant (I := fun z => z.Ok sys ∧ z.eh.alive t = true ∧ z.eh.Failing t w) ?_
      ⟨okY, liveY, failing⟩
    intro a l b before next
    obtain ⟨ok, alive, fails⟩ := before
    obtain ⟨at_, -, ok'⟩ := ok.step next.1
    exact ⟨ok', fails.alive ok.inv alive at_, fails.step ok.inv alive conditional at_ next.2⟩
  have error : (z.eh.point t).waits = some w → (z.eh.events.flags (.wait t)).error = true := by
    intro inside
    rcases fails with ⟨-, error⟩ | at_ | at_
    · exact error
    · rw [at_] at inside
      cases inside
    · rw [at_] at inside
      cases inside
  refine ⟨fails, fun inside => ⟨fun sleeps => ?_, ?_⟩, fun self own => ?_⟩
  · have receptor := ok.inv.event.task t
    have reached := receptor.error alive inside event (error inside)
    rw [receptor.waiting alive sleeps] at reached
    cases reached
  · rintro sys' s' conditional' rfl flags
    exact check_error conditional' (by rw [flags, error inside])
  · subst self
    exact fails.leaving.touched ok.inv ok.timers ok.wires own

def Wired.runs (sys : System T O W C A) (main : T) (world : W) (ls : List (Label T O P C A)) :
    Option (Wired T O P W C A) :=
  ls.foldlM (fun x l => x.step sys l) (init main world)

theorem Wired.reachable_get {main : T} {world : W} {ls : List (Label T O P C A)}
    (h : (runs sys main world ls).isSome = true) :
    ((runs sys main world ls).get h).Reachable sys main world :=
  ⟨ls, .of_foldlM_some (Option.some_get h).symm⟩

def mainJoins : List (Label Nat Unit Unit Unit Empty) :=
  callThen (.create 1 false false) 0 ++ callThen (.wait ⟨.join 1, ehTimeForever⟩) 2

theorem mainJoins_runs : (Wired.runs plain 0 () mainJoins).isSome = true := rfl

theorem ehEventClean_waiters_join : ∃ x y : Wired Nat Unit Unit Unit Unit Empty,
    x.Reachable plain 0 () ∧ x.step plain (.signal (.clean (.task 1))) = some y ∧
      y.eh.sched.state 0 ≠ .wait ∧ y.eh.Blind 0 ⟨.join 1, ehTimeForever⟩ := by
  have reachable := Wired.reachable_get mainJoins_runs
  have step := (Option.some_get (show (((Wired.runs plain 0 () mainJoins).get
    mainJoins_runs).step plain (.signal (.clean (.task 1)))).isSome = true from rfl)).symm
  have fails := ehEventClean_waiters plain 0 () _ _ _ _ [] 0 ⟨.join 1, ehTimeForever⟩ (.task 1)
    reachable step rfl rfl rfl rfl rfl (.nil _)
  exact ⟨_, _, reachable, step, fails.2.1 rfl⟩

end EventHub.Kernel
