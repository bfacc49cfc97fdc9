import EventHub.Core.PollTasks
import EventHub.Kernel.Reclaim

/-! The system over several lifetimes. `eh_global_init` sets up the lists anew, while the node
of `auto_destruct_task` is static and keeps the links it had at `eh_global_exit`. -/

namespace EventHub.Core
open Library Event Kernel

structure Life (T O P W C A : Type) where
  eh : Eh T O P W C A
  /-- `loop_poll_task_head`, and the `list_node` of `auto_destruct_task`. -/
  polls : Links (PollNode Unit)
  /-- Between `eh_global_init` and `eh_global_exit`. -/
  running : Bool

inductive LifeLabel (T O P W C A : Type) where
  | step (l : Label T O P C A)
  | exit
  | init (world : W)

/-- `_eh_poll_run` finds `auto_destruct_task`. -/
def autoLinked (m : Links (PollNode Unit)) : Bool := m.prev .head = .task ()

/-- The call of `eh_loop_poll_task_add` or `eh_loop_poll_task_del` in a step that finds
`auto_destruct_task` in the list or not, and is to leave it so. -/
def pollEdit (m : Links (PollNode Unit)) : Bool → Bool → Links (PollNode Unit)
  | false, true => ehLoopPollTaskAdd m ()
  | true, false => ehLoopPollTaskDel m ()
  | _, _ => m

section Code
variable {T O P W C A : Type} [DecidableEq T] [DecidableEq O] [DecidableEq P]

/-- The loop of `_clear` over these tasks. -/
def clear (e : Eh T O P W C A) (us : List T) : Eh T O P W C A :=
  us.foldl (fun e u => (e.signal (.clean (.task u))).destroy u) e

namespace Life

/-- A step leads to `e`, with the list edited by the pointers. -/
def advance (s : Life T O P W C A) (e : Eh T O P W C A) : Life T O P W C A :=
  let polls := pollEdit s.polls s.eh.sched.autoDestructTask e.sched.autoDestructTask
  { s with
    eh := { e with sched := { e.sched with autoDestructTask := autoLinked polls } }
    polls := polls }

/-- The main task calls `eh_global_exit` and `eh_global_init`. -/
inductive Step (sys : System T O W C A) :
    Life T O P W C A → LifeLabel T O P W C A → Life T O P W C A → Prop
  | step {s : Life T O P W C A} {l : Label T O P C A} {e : Eh T O P W C A} :
      s.running = true → s.eh.step sys l = some e → Step sys s (.step l) (s.advance e)
  | exit {s : Life T O P W C A} {us : List T} : s.running = true →
      s.eh.self = s.eh.sched.mainTask → s.eh.point s.eh.self = .user →
      s.eh.sched.links.Ring (.taskFinishAutoDestructListHead :: us.map .task) →
      Step sys s .exit { s with eh := clear s.eh us, running := false }
  | init {s : Life T O P W C A} (world : W) : s.running = false →
      Step sys s (.init world)
        { eh := .init s.eh.sched.mainTask world
          polls := s.polls.alone .head
          running := true }

/-- A step between `eh_global_init` and `eh_global_exit`. -/
def KernelStep (sys : System T O W C A) (s : Life T O P W C A) (l : Label T O P C A)
    (s' : Life T O P W C A) : Prop := Step sys s (.step l) s'

def polling (s : Life T O P W C A) : Bool := (s.eh.point s.eh.self).polling

/-- The first `eh_global_init`; `EH_LIST_HEAD_INIT` has linked the node to itself. -/
def first (main : T) (world : W) : Life T O P W C A := ⟨.init main world, ⟨id, id⟩, true⟩

/-- `eh_global_exit` is called when `auto_destruct_task` is not linked. -/
def ExitsUnlinked (s : Life T O P W C A) : LifeLabel T O P W C A → Prop
  | .exit => autoLinked s.polls = false
  | .step _ | .init _ => True

/-- If there are finished detached tasks then `auto_destruct_task` is linked, and the next
`eh_poll` comes to its end and destroys them. -/
structure Reclaimed (sys : System T O W C A) (s : Life T O P W C A) : Prop where
  linked : s.eh.sched.links.next .taskFinishAutoDestructListHead ≠
    .taskFinishAutoDestructListHead → s.polls.prev .head = .task ()
  destroys : ∀ {ks l s₁ s₂}, Run (KernelStep sys) s ks s₁ → s₁.polling = true →
    KernelStep sys s₁ l s₂ → s₂.polling = false →
    ∀ u, Linked s.eh.sched.links .taskFinishAutoDestructListHead u →
      ∃ ks₁ ks₂ m, ks₁ ++ ks₂ = ks ++ [l] ∧ Run (KernelStep sys) s ks₁ m ∧
        Run (KernelStep sys) m ks₂ s₂ ∧ m.eh.alive u = false
  ends : s.polling = true → ∃ n, ∀ {ks s₁},
    Run (fun a l b => KernelStep sys a l b ∧ b.polling = true) s ks s₁ →
      ks.countP Label.isGo ≤ n ∧ ∃ s₂, KernelStep sys s₁ .go s₂

/-- The list of poll tasks is that of the kernel, and empty while nothing runs. -/
structure Ok (sys : System T O W C A) (s : Life T O P W C A) : Prop where
  polls : ∃ k, Polls s.polls k ∧
    (s.running = true → s.eh.sched.autoDestructTask = decide (k = [()])) ∧
    (s.running = false → k = [])
  kernel : s.running = true → Invariant sys s.eh ∧ s.eh.Reclaims

end Life

end Code

/-! The node of `auto_destruct_task`. -/

theorem polls_cases {m : Links (PollNode Unit)} {k : List Unit} (h : Polls m k) :
    k = [] ∨ k = [()] := by
  have nodup := h.nodup
  match k with
  | [] => exact .inl rfl
  | [()] => exact .inr rfl
  | () :: () :: k => simp at nodup

theorem Polls.autoLinked {m : Links (PollNode Unit)} {k : List Unit} (h : Polls m k) :
    autoLinked m = decide (k = [()]) := by
  rcases polls_cases h with rfl | rfl
  · have prev := h.prev_head (k := [])
    simp [Core.autoLinked, prev, cursor]
  · have prev := h.prev_head (k := [()])
    simp [Core.autoLinked, prev, cursor]

theorem Polls.pollEdit {m : Links (PollNode Unit)} {k : List Unit} (h : Polls m k) (b : Bool) :
    ∃ k', Polls (pollEdit m (decide (k = [()])) b) k' ∧ b = decide (k' = [()]) := by
  rcases polls_cases h with rfl | rfl
  · cases b with
    | false => exact ⟨[], h, rfl⟩
    | true => exact ⟨[()], h.add (), rfl⟩
  · cases b with
    | false => exact ⟨[], h.del (), rfl⟩
    | true => exact ⟨[()], h, rfl⟩

namespace Life
variable {T O P W C A : Type} [DecidableEq T] [DecidableEq O] [DecidableEq P]
  {sys : System T O W C A} {s s' : Life T O P W C A} {l : Label T O P C A}

theorem Ok.kernelStep (h : s.Ok sys) (step : KernelStep sys s l s') :
    s.eh.step sys l = some s'.eh ∧ s'.Ok sys := by
  cases step with
  | @step _ e running step =>
    obtain ⟨k, polls, linked, -⟩ := h.polls
    obtain ⟨inv, reclaims⟩ := h.kernel running
    obtain ⟨k', polls', flag⟩ := polls.pollEdit e.sched.autoDestructTask
    rw [← linked running] at polls'
    have same : autoLinked (Core.pollEdit s.polls s.eh.sched.autoDestructTask
        e.sched.autoDestructTask) = e.sched.autoDestructTask := polls'.autoLinked.trans flag.symm
    have eh : (s.advance e).eh = e := by
      simp only [advance, same]
    refine ⟨step.trans (congrArg some eh.symm), ⟨k', polls', fun _ => ?_, fun off => ?_⟩,
      fun _ => ?_⟩
    · rw [eh, flag]
    · have on : (s.advance e).running = true := running
      rw [on] at off
      cases off
    · rw [eh]
      exact ⟨inv.step step, reclaims.step inv (Eh.scheduling inv step)⟩

theorem Ok.step (h : s.Ok sys) {l : LifeLabel T O P W C A} (exits : s.ExitsUnlinked l)
    (step : Step sys s l s') : s'.Ok sys := by
  cases step with
  | step running step => exact (h.kernelStep (.step running step)).2
  | exit running main user ring =>
    obtain ⟨k, polls, linked, -⟩ := h.polls
    refine ⟨⟨k, polls, fun on => (by cases on), fun _ => ?_⟩, fun on => by cases on⟩
    have off : autoLinked s.polls = false := exits
    rw [polls.autoLinked] at off
    exact (polls_cases polls).resolve_right (by simpa using off)
  | init world stopped =>
    obtain ⟨k, polls, -, empty⟩ := h.polls
    have none := empty stopped
    subst none
    refine ⟨⟨[], ⟨?_, fun p out => ?_⟩, fun _ => rfl, fun off => by cases off⟩, fun _ => ?_⟩
    · exact Links.ring_singleton.mpr ⟨by simp, by simp⟩
    · obtain ⟨next, prev⟩ := s.polls.alone_agree .head (.task p) (by simp)
      rw [next, prev]
      exact polls.alone p out
    · refine ⟨.init sys _ world, fun ne => absurd rfl ne⟩

omit [DecidableEq O] [DecidableEq P] in
theorem first_ok (sys : System T O W C A) (main : T) (world : W) :
    (first main world : Life T O P W C A).Ok sys := by
  refine ⟨⟨[], ⟨?_, fun _ _ => ⟨rfl, rfl⟩⟩, fun _ => rfl, fun off => by cases off⟩, fun _ => ?_⟩
  · exact Links.ring_singleton.mpr ⟨rfl, rfl⟩
  · exact ⟨.init sys main world, fun ne => absurd rfl ne⟩

theorem Ok.linked_auto (h : s.Ok sys) {ks : List (Label T O P C A)} {u : T}
    (run : Run (KernelStep sys) s ks s')
    (linked : Linked s.eh.sched.links .taskFinishAutoDestructListHead u) :
    s'.Ok sys ∧ (Linked s'.eh.sched.links .taskFinishAutoDestructListHead u ∨
      ∃ ks₁ ks₂ m, ks₁ ++ ks₂ = ks ∧ Run (KernelStep sys) s ks₁ m ∧
        Run (KernelStep sys) m ks₂ s' ∧ m.eh.alive u = false) := by
  induction run with
  | nil => exact ⟨h, .inl linked⟩
  | @snoc mid after ks l before last ih =>
    obtain ⟨ok, done⟩ := ih
    obtain ⟨step, ok'⟩ := ok.kernelStep last
    refine ⟨ok', ?_⟩
    rcases done with still | ⟨ks₁, ks₂, m, split, run₁, run₂, dead⟩
    · have running : mid.running = true := by
        cases last
        assumption
      have inv := (ok.kernel running).1
      rcases (Eh.scheduling inv step).linked_auto inv still with linked | dead
      · exact .inl linked
      · exact .inr ⟨ks ++ [l], [], after, by simp, .snoc before last, .nil _, dead⟩
    · exact .inr ⟨ks₁, ks₂ ++ [l], m, by rw [← List.append_assoc, split], run₁,
        .snoc run₂ last, dead⟩

theorem Ok.polls_run (h : s.Ok sys) {ks : List (Label T O P C A)} {lists : Home → List T}
    (run : Run (fun a l b => KernelStep sys a l b ∧ b.polling = true) s ks s')
    (polls : s.polling = true) (holds : Holds s.eh.sched (s.eh.alive · = true) lists)
    (running : s.running = true) :
    s'.Ok sys ∧ s'.running = true ∧ s'.polling = true ∧
      ∃ lists', Holds s'.eh.sched (s'.eh.alive · = true) lists' ∧
        (s'.eh.point s'.eh.self).pollRest (lists' .autoDestruct).length +
          ks.countP Label.isGo ≤
            (s.eh.point s.eh.self).pollRest (lists .autoDestruct).length := by
  induction run with
  | nil => exact ⟨h, running, polls, lists, holds, by simp⟩
  | @snoc mid after ks l before last ih =>
    obtain ⟨ok, on, polls, lists', holds', bound⟩ := ih
    obtain ⟨step, ok'⟩ := ok.kernelStep last.1
    obtain ⟨inv, reclaims⟩ := ok.kernel on
    have on' : after.running = true := by
      cases last.1
      exact on
    obtain ⟨lists₂, holds₂, goes⟩ := polling_step inv reclaims polls step holds'
    refine ⟨ok', on', last.2, lists₂, holds₂, ?_⟩
    obtain ⟨-, less⟩ | ⟨ends, -⟩ := goes
    · have counted : (ks ++ [l]).countP Label.isGo =
          ks.countP Label.isGo + (if l.isGo then 1 else 0) := by
        rw [List.countP_append, List.countP_singleton]
      omega
    · rw [show after.polling = false from ends] at last
      cases last.2

theorem Ok.reclaimed (h : s.Ok sys) (running : s.running = true) : s.Reclaimed sys where
  linked next := by
    obtain ⟨k, polls, linked, -⟩ := h.polls
    have flag := (h.kernel running).2 next
    rw [linked running, ← polls.autoLinked] at flag
    exact of_decide_eq_true flag
  destroys := by
    intro ks l s₁ s₂ run polls last ends u linked
    obtain ⟨ok, -⟩ := h.linked_auto run linked
    obtain ⟨-, done⟩ := h.linked_auto (.snoc run last) linked
    refine done.resolve_left fun still => ?_
    -- behind the poll the list is empty
    have on : s₁.running = true := by
      cases last
      assumption
    obtain ⟨inv, reclaims⟩ := ok.kernel on
    obtain ⟨step, -⟩ := ok.kernelStep last
    obtain ⟨lists, holds, -⟩ := inv.sched.lists
    obtain ⟨lists', holds', ⟨more, -⟩ | ⟨-, empty⟩⟩ := polling_step inv reclaims polls step holds
    · rw [show (s₂.eh.point s₂.eh.self).polling = false from ends] at more
      cases more
    · rcases (holds'.linked .autoDestruct u).mp still with ⟨home, -⟩ | mem
      · cases home
      · rw [empty] at mem
        cases mem
  ends polls := by
    obtain ⟨lists, holds, -⟩ := (h.kernel running).1.sched.lists
    refine ⟨(s.eh.point s.eh.self).pollRest (lists .autoDestruct).length, fun {ks s₁} run => ?_⟩
    obtain ⟨ok, on, polls₁, lists', holds', bound⟩ := h.polls_run run polls holds running
    refine ⟨(Nat.le_add_left _ _).trans bound, ?_⟩
    obtain ⟨e, step⟩ := Option.isSome_iff_exists.mp (polling_go (ok.kernel on).1 polls₁)
    exact ⟨_, .step on step⟩

end Life

/-- In every run in which `eh_global_exit` is called only when `auto_destruct_task` is not
linked, it is linked whenever a detached task has finished, and the next `eh_poll` destroys
these tasks. -/
theorem ehTaskNext_reclaims {T O P W C A : Type} [DecidableEq T] [DecidableEq O] [DecidableEq P]
    (sys : System T O W C A) (main : T) (world : W) {ls : List (LifeLabel T O P W C A)}
    {s : Life T O P W C A}
    (run : Run (fun s l s' => s.ExitsUnlinked l ∧ Life.Step sys s l s')
      (Life.first main world) ls s)
    (running : s.running = true) : s.Reclaimed sys := by
  have ok : s.Ok sys :=
    run.invariant (fun ok step => ok.step step.1 step.2) (Life.first_ok sys main world)
  exact ok.reclaimed running

/-! Two lifetimes. -/

/-- The given steps between `eh_global_init` and `eh_global_exit`. -/
def Life.runs {T O P W C A : Type} [DecidableEq T] [DecidableEq O] [DecidableEq P]
    (sys : System T O W C A) (s : Life T O P W C A) (ls : List (Label T O P C A)) :
    Option (Life T O P W C A) :=
  ls.foldlM (fun s l => (s.eh.step sys l).map s.advance) s

theorem Life.runs_run {T O P W C A : Type} [DecidableEq T] [DecidableEq O] [DecidableEq P]
    {sys : System T O W C A} {s s' : Life T O P W C A} {ls : List (Label T O P C A)}
    (running : s.running = true) (runs : s.runs sys ls = some s') :
    Run (fun s l s' => s.ExitsUnlinked l ∧ Step sys s l s') s (ls.map .step) s' ∧
      s'.running = true := by
  induction ls generalizing s with
  | nil =>
    cases runs
    exact ⟨.nil _, running⟩
  | cons l ls ih =>
    rw [Life.runs, List.foldlM_cons] at runs
    obtain ⟨mid, first, rest⟩ := Option.bind_eq_some_iff.mp runs
    obtain ⟨e, step, rfl⟩ := Option.map_eq_some_iff.mp first
    obtain ⟨later, on⟩ := ih (s := s.advance e) running rest
    exact ⟨.cons ⟨trivial, .step running step⟩ later, on⟩

theorem Life.restart {T O P W C A : Type} [DecidableEq T] [DecidableEq O] [DecidableEq P]
    {sys : System T O W C A} {s : Life T O P W C A} {us : List T} {main : T} (world : W)
    (running : s.running = true) (self : s.eh.self = s.eh.sched.mainTask)
    (user : s.eh.point s.eh.self = .user)
    (ring : s.eh.sched.links.Ring (.taskFinishAutoDestructListHead :: us.map .task))
    (kept : (clear s.eh us).sched.mainTask = main) :
    ∃ mid, Step sys s .exit mid ∧
      Step sys mid (.init world) ⟨.init main world, s.polls.alone .head, true⟩ := by
  subst kept
  exact ⟨_, .exit running self user ring, .init world rfl⟩

def detachedReturns : List (Label Nat Unit Unit Unit Empty) :=
  callThen (.create 1 false true) 0 ++ callThen .yield 4 ++ callThen .ret 5

theorem reclaims_runs :
    ((Life.first 0 ()).runs plain (detachedReturns ++ callThen .yield 6)).isSome = true := by
  decide +kernel

/-- The next `eh_poll` has destroyed the task. -/
def reclaimsLife : Life Nat Unit Unit Unit Unit Empty :=
  ((Life.first 0 ()).runs plain (detachedReturns ++ callThen .yield 6)).get reclaims_runs

theorem reclaimsLife_ends : autoLinked reclaimsLife.polls = false ∧
    reclaimsLife.eh.alive 1 = false ∧ reclaimsLife.eh.self = reclaimsLife.eh.sched.mainTask ∧
    reclaimsLife.eh.sched.mainTask = 0 ∧ reclaimsLife.eh.point reclaimsLife.eh.self = .user ∧
    reclaimsLife.eh.sched.links.next .taskFinishAutoDestructListHead =
      .taskFinishAutoDestructListHead ∧
    reclaimsLife.eh.sched.links.prev .taskFinishAutoDestructListHead =
      .taskFinishAutoDestructListHead := by
  decide +kernel

def nextInit : Life Nat Unit Unit Unit Unit Empty :=
  ⟨.init 0 (), reclaimsLife.polls.alone .head, true⟩

theorem nextInit_run : Run (fun s l s' => s.ExitsUnlinked l ∧ Life.Step plain s l s')
    reclaimsLife [.exit, .init ()] nextInit := by
  obtain ⟨unlinked, -, main, zero, user, next, prev⟩ := reclaimsLife_ends
  have ring : reclaimsLife.eh.sched.links.Ring
      (.taskFinishAutoDestructListHead :: ([] : List Nat).map .task) :=
    ⟨by simp, next, prev⟩
  have kept : (clear reclaimsLife.eh []).sched.mainTask = 0 := by rw [clear, List.foldl_nil, zero]
  obtain ⟨mid, exit, init⟩ := Life.restart ()
    (Life.runs_run rfl (Option.some_get reclaims_runs).symm).2 main user ring kept
  exact .cons ⟨unlinked, exit⟩ (.single ⟨trivial, init⟩)

theorem nextLife_runs : (nextInit.runs plain detachedReturns).isSome = true := by decide +kernel

def nextLife : Life Nat Unit Unit Unit Unit Empty :=
  (nextInit.runs plain detachedReturns).get nextLife_runs

/-- In the second lifetime a task waits to be reclaimed, as one did in the first. -/
theorem ehTaskNext_reclaims_next : nextLife.Reclaimed plain ∧
    nextLife.eh.sched.links.next .taskFinishAutoDestructListHead = .task 1 ∧
    autoLinked nextLife.polls = true := by
  have first := Life.runs_run rfl (Option.some_get reclaims_runs).symm
  have later := Life.runs_run rfl (Option.some_get nextLife_runs).symm
  exact ⟨ehTaskNext_reclaims plain 0 () ((first.1.append nextInit_run).append later.1) later.2,
    by decide +kernel, by decide +kernel⟩

theorem firstLife_runs : ((Life.first 0 ()).runs plain detachedReturns).isSome = true := rfl

def firstLife : Life Nat Unit Unit Unit Unit Empty :=
  ((Life.first 0 ()).runs plain detachedReturns).get firstLife_runs

theorem firstLife_run : Run (fun s l s' => s.ExitsUnlinked l ∧ Life.Step plain s l s')
    (Life.first 0 ()) (detachedReturns.map .step) firstLife ∧ firstLife.running = true :=
  Life.runs_run rfl (Option.some_get firstLife_runs).symm

/-- Behind `eh_global_exit`, called at once, and `eh_global_init`. -/
def secondInit : Life Nat Unit Unit Unit Unit Empty :=
  ⟨.init 0 (), firstLife.polls.alone .head, true⟩

theorem secondInit_run : Run (Life.Step plain) firstLife [.exit, .init ()] secondInit := by
  have ring : firstLife.eh.sched.links.Ring
      (.taskFinishAutoDestructListHead :: [1].map .task) := by
    refine ⟨by decide, ?_⟩
    exact ⟨rfl, rfl, rfl, rfl⟩
  obtain ⟨mid, exit, init⟩ := Life.restart () firstLife_run.2 rfl rfl ring rfl
  exact .cons exit (.single init)

theorem secondLife_runs : (secondInit.runs plain detachedReturns).isSome = true := rfl

def secondLife : Life Nat Unit Unit Unit Unit Empty :=
  (secondInit.runs plain detachedReturns).get secondLife_runs

/-- In the second lifetime a detached task has finished, and `auto_destruct_task` is not
linked. -/
theorem ehTaskNext_forgets_detached : ∃ ls, Run (Life.Step plain) (Life.first 0 ()) ls secondLife ∧
    secondLife.running = true ∧
    secondLife.eh.sched.links.next .taskFinishAutoDestructListHead = .task 1 ∧
    secondLife.polls.prev .head = .head ∧ ¬ secondLife.Reclaimed plain := by
  have later := Life.runs_run rfl (Option.some_get secondLife_runs).symm
  have first : Run (Life.Step plain) (Life.first 0 ()) _ firstLife := firstLife_run.1.imp And.right
  have unlinked : secondLife.polls.prev .head = .head := rfl
  refine ⟨_, (first.append secondInit_run).append (later.1.imp And.right), later.2, rfl, unlinked,
    fun reclaimed => ?_⟩
  have linked := reclaimed.linked (by decide)
  rw [unlinked] at linked
  cases linked

end EventHub.Core
