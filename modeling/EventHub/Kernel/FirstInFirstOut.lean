import EventHub.Kernel.Scheduling
import EventHub.Kernel.Wakeup
import EventHub.Library.Precedence

/-! Without system tasks the ring of the ready tasks, read from the current one, is a queue
that is first in, first out. -/

namespace EventHub.Kernel
open Library Event

variable {T O P W C A : Type}

def Label.ordinary : Label T O P C A → Bool
  | .create _ isSystemTask _ => !isSystemTask
  | _ => true

/-- No task has `EH_TASK_FLAGS_SYSTEM_TASK`. -/
def Eh.Ordinary (s : Eh T O P W C A) : Prop :=
  ∀ t, s.alive t = true → (s.sched.task t).isSystemTask = false

/-- What the ring shows, read from `next` of the current task. -/
structure Shows (s : Eh T O P W C A) (q : Turns T) : Prop where
  current : q.current = s.self
  ring : s.sched.links.Ring (.task s.self :: q.queue.map .task)
  idle : q.idle = (s.point s.self).idling

theorem Shows.lists {s : Eh T O P W C A} {q : Turns T} (h : Shows s q) {l : Home → List T}
    (holds : Holds s.sched (s.alive · = true) l) : l .ready = q.queue := by
  have same : (l .ready).map Node.task = q.queue.map .task :=
    (holds.rings.ring .ready).unique h.ring
  exact List.map_injective_iff.mpr (fun _ _ eq => by cases eq; rfl) same

theorem switched_ready (s : Eh T O P W C A) (lists : Home → List T) (rest : List T) :
    switched s.sched lists rest .ready = rest ++ (if s.isReady then [s.self] else []) := by
  rw [switched, Eh.isReady]
  cases st : s.sched.state s.self with
  | finish =>
    dsimp only
    split <;> simp
  | _ => simp

theorem Shows.of_holds {s : Eh T O P W C A} {lists : Home → List T} {alive : T → Prop}
    (holds : Holds s.sched alive lists) :
    Shows s ⟨s.self, lists .ready, (s.point s.self).idling⟩ where
  current := rfl
  ring := holds.rings.ring .ready
  idle := rfl

theorem Shows.mem_queue {sys : System T O W C A} {s : Eh T O P W C A} {q : Turns T}
    (inv : Invariant sys s) (shows_ : Shows s q) (t : T) :
    t ∈ q.queue ↔ s.alive t = true ∧ t ≠ s.self ∧ s.sched.state t = .ready := by
  obtain ⟨lists, holds, -⟩ := inv.sched.lists
  rw [← shows_.lists holds, holds.mem, home_ready]

variable [DecidableEq T] {sys : System T O W C A} {s s' : Eh T O P W C A}
  {l : Label T O P C A} {ms : List (Turn T)} {q : Turns T}

def Eh.TurnStep [DecidableEq O] [DecidableEq P] (sys : System T O W C A) (s : Eh T O P W C A)
    (ms : List (Turn T)) (s' : Eh T O P W C A) : Prop :=
  ∃ l : Label T O P C A, l.ordinary = true ∧ s.step sys l = some s' ∧ ms = s.turns sys l

theorem Sched.readied_congr {x y : Sched T} (ts : List T) (cur : x.currentTask = y.currentTask)
    (state : ∀ t, t ≠ y.currentTask → x.state t = y.state t) : x.readied ts = y.readied ts := by
  induction ts generalizing x y with
  | nil => rfl
  | cons t ts ih =>
    have head : (x.state t = .wait ∧ t ≠ x.currentTask) ↔
        (y.state t = .wait ∧ t ≠ y.currentTask) := by
      rw [cur]
      exact and_congr_left fun ne => by rw [state t ne]
    rw [Sched.readied, Sched.readied, if_congr head rfl rfl, ih]
    · simpa using cur
    · intro u ne
      rw [Sched.ehTaskWakeUp_currentTask] at ne
      rw [Sched.ehTaskWakeUp_state, Sched.ehTaskWakeUp_state, state u ne]
      by_cases eq : u = t
      · subst eq
        rw [state u ne]
      · simp [eq]

def Turn.ranked (urgent : T → Bool) : Turn T → Ranked T
  | .ready t => (.ready t, urgent t)
  | m => (m, false)

/-- Wake-ups put the system tasks at the front of the queue and append the others. -/
theorem Holds.foldl_ranked {x : Sched T} {alive : T → Prop} {lists : Home → List T}
    (h : Holds x alive lists) (ts : List T) (live : ∀ t ∈ ts, alive t) (idle : Bool) :
    ∃ lists', Holds (ts.foldl Sched.ehTaskWakeUp x) alive lists' ∧
      Run Turns.RankedStep ⟨x.currentTask, lists .ready, idle⟩
        ((x.readied ts).map fun t => (.ready t, (x.task t).isSystemTask))
        ⟨x.currentTask, lists' .ready, idle⟩ := by
  induction ts generalizing x lists with
  | nil => exact ⟨lists, h, .nil _⟩
  | cons t ts ih =>
    have liveT := live t (by simp)
    obtain ⟨lists', holds, run⟩ := ih (h.ehTaskWakeUp liveT) fun u mem => live u (by simp [mem])
    have ranks : ∀ u, ((x.ehTaskWakeUp t).task u).isSystemTask = (x.task u).isSystemTask :=
      Sched.ehTaskWakeUp_isSystemTask x t
    simp only [Sched.ehTaskWakeUp_currentTask, ranks] at run
    refine ⟨lists', holds, ?_⟩
    rw [Sched.readied]
    by_cases waits : x.state t = .wait ∧ t ≠ x.currentTask
    · obtain ⟨waiting, ne⟩ := waits
      have out : t ∉ x.currentTask :: lists .ready := by
        rw [List.mem_cons, not_or]
        refine ⟨ne, fun mem => ?_⟩
        have ready := home_ready.mp (h.state_of_mem mem)
        rw [waiting] at ready
        cases ready
      rw [Kernel.woken, if_neg (by simp [waiting, ne]), Function.update_self] at run
      rw [if_pos ⟨waiting, ne⟩]
      exact .cons (.ready (q := ⟨x.currentTask, lists .ready, idle⟩) _ out) run
    · have quiet : x.state t ≠ .wait ∨ t = x.currentTask := by
        by_contra both
        exact waits (by simpa using both)
      rw [Kernel.woken, if_pos quiet] at run
      rw [if_neg waits]
      exact run

theorem Sched.readied_subset (x : Sched T) (ts : List T) : x.readied ts ⊆ ts := by
  induction ts generalizing x with
  | nil => exact List.Subset.refl _
  | cons t ts ih =>
    rw [Sched.readied]
    split
    · exact List.cons_subset_cons t (ih _)
    · exact fun u mem => List.mem_cons_of_mem t (ih _ mem)

theorem Holds.wakes_ranked {x : Sched T} {alive : T → Prop} {lists : Home → List T}
    (h : Holds x alive lists) (st : TaskState) (ts : List T) (live : ∀ t ∈ ts, alive t)
    (idle : Bool) :
    ∃ lists', Holds (ts.foldl Sched.ehTaskWakeUp (x.setState x.currentTask st)) alive lists' ∧
      Run Turns.RankedStep ⟨x.currentTask, lists .ready, idle⟩
        ((x.readied ts).map fun t => (.ready t, (x.task t).isSystemTask))
        ⟨x.currentTask, lists' .ready, idle⟩ := by
  obtain ⟨lists', holds', run⟩ := (h.setState_current st).foldl_ranked ts live idle
  have others : (x.setState x.currentTask st).readied ts = x.readied ts :=
    Sched.readied_congr ts rfl fun t ne => by simp [ne]
  simp only [others, Sched.setState_isSystemTask] at run
  exact ⟨lists', holds', run⟩

theorem Scheduling.ranked (inv : Invariant sys s) (step : Scheduling s l ms s')
    (shows_ : Shows s q) (urgent : T → Bool)
    (wakes : ∀ t, .ready t ∈ ms → s.alive t = true → urgent t = (s.sched.task t).isSystemTask)
    (creates : ∀ t system auto, l = .create t system auto → urgent t = system) :
    ∃ q', Run Turns.RankedStep q (ms.map (Turn.ranked urgent)) q' ∧ Shows s' q' := by
  obtain ⟨lists, holds, -⟩ := inv.sched.lists
  have ready := shows_.lists holds
  obtain ⟨current, queue, idle⟩ := q
  obtain ⟨self, ring, idles⟩ := shows_
  dsimp only at self ring idles ready
  subst self ready idles
  -- the ring of a state with the same links, whatever the pass
  have same : ∀ b, s'.sched.links = s.sched.links → s'.self = s.self →
      b = (s'.point s'.self).idling → Shows s' ⟨s.self, lists .ready, b⟩ := by
    intro b links at_ eq
    refine ⟨at_.symm, ?_, eq⟩
    rw [at_, links]
    exact ring
  cases step with
  | still n sched alive idling =>
    exact ⟨_, .nil _, same _ (by rw [sched]) (by rw [Eh.self, sched]) idling.symm⟩
  | wakes st ts live sched alive idling =>
    obtain ⟨lists', holds', run⟩ :=
      holds.wakes_ranked st ts live (s.point s.self).idling
    change Holds (ts.foldl Sched.ehTaskWakeUp (s.sched.setState s.self st)) _ _ at holds'
    rw [← sched] at holds'
    have at_ : s'.self = s.self := by simp [Eh.self, sched]
    have shown := Shows.of_holds holds'
    rw [idling, at_] at shown
    refine ⟨_, ?_, shown⟩
    have ranks : (s.sched.readied ts).map (fun t => (.ready t, (s.sched.task t).isSystemTask)) =
        ((s.sched.readied ts).map .ready).map (Turn.ranked urgent) := by
      rw [List.map_map]
      refine List.map_congr_left fun t mem => ?_
      rw [Function.comp_apply, Turn.ranked,
        wakes t (List.mem_map_of_mem mem) (live t (Sched.readied_subset _ ts mem))]
    rw [← ranks]
    exact run
  | polled empty sched alive idling =>
    exact ⟨_, .nil _, same _ (by rw [sched]) (by rw [Eh.self, sched]) idling.symm⟩
  | releases u b live finish ne sched empty alive idling =>
    have at_ : s'.self = s.self := by
      rw [Eh.self, sched]
      rfl
    obtain ⟨i, mem, other⟩ : ∃ i, u ∈ lists i ∧ i ≠ .ready := by
      cases auto : (s.sched.task u).isAutoDestruct
      · exact ⟨.finish, (holds.mem _ u).mpr ⟨live, ne, home_finish.mpr ⟨finish, auto⟩⟩, by decide⟩
      · exact ⟨.autoDestruct,
          (holds.mem _ u).mpr ⟨live, ne, home_autoDestruct.mpr ⟨finish, auto⟩⟩, by decide⟩
    have left := (holds.ehListDel mem).rings.ring .ready
    rw [Sched.nodes, Function.update_of_ne other.symm] at left
    refine ⟨_, .nil _, at_.symm, ?_, idling.symm⟩
    rw [at_, sched]
    exact left
  | idles none sched alive idling =>
    have empty := holds.ringEmpty.mp none
    exact ⟨_, .single (.plain (by simp) (.idle empty)),
      same _ (by rw [sched]) (by rw [Eh.self, sched]) idling.symm⟩
  | resumes idles sched alive idling =>
    exact ⟨_, .single (.plain (by simp) (.resume idles)), same _ (by rw [sched]; rfl)
      (by rw [Eh.self, sched]; rfl) idling.symm⟩
  | stays idles sched alive idling =>
    exact ⟨_, .single (.plain (by simp) (.stay idles)),
      same _ (by rw [sched]) (by rw [Eh.self, sched]) idling.symm⟩
  | @switches _ u rest lists' calm holds' first sched alive idling =>
    have lists_eq : lists .ready = u :: rest :=
      ((Shows.of_holds holds).lists holds').symm.trans first
    have held : Holds s'.sched (s.alive · = true) (switched s.sched lists rest) :=
      sched ▸ holds.switchTo lists_eq
    have shown := Shows.of_holds held
    have at_ : s'.self = u := by simp [Eh.self, sched]
    rw [switched_ready, idling, at_] at shown
    exact ⟨_, .single (.plain (by simp) (.switch s.isReady calm lists_eq)), shown⟩
  | @creates _ t system auto eq dead sched alive idling =>
    have rank := creates t system auto eq
    subst eq
    have notLive : ¬ s.alive t = true := by simp [dead]
    have created := holds.ehTaskCreate notLive system auto
    rw [← sched] at created
    have shown := Shows.of_holds created
    have at_ : s'.self = s.self := by simp [Eh.self, sched]
    have out : t ∉ s.self :: lists .ready := by
      have := holds.not_mem_nodes notLive .ready
      simpa [Sched.nodes, Sched.head] using this
    rw [Kernel.created, Function.update_self, idling, at_] at shown
    refine ⟨_, .single ?_, shown⟩
    rw [Turn.ranked, rank]
    exact .ready system out

theorem Scheduling.shows (inv : Invariant sys s) (ordinary : s.Ordinary)
    (label : l.ordinary = true) (step : Scheduling s l ms s') (shows_ : Shows s q) :
    ∃ q', Run Turns.Step q ms q' ∧ Shows s' q' := by
  obtain ⟨q', run, shown⟩ := step.ranked inv shows_ (fun _ => false)
    (fun t _ live => (ordinary t live).symm) fun t system auto eq => by
      subst eq
      simpa [Label.ordinary] using label.symm
  have plain : Turn.ranked (fun _ => false) = fun m : Turn T => (m, false) := by
    funext m
    cases m <;> rfl
  rw [plain] at run
  exact ⟨q', Turns.run_plain run, shown⟩

theorem Eh.Ordinary.step (h : s.Ordinary) (label : l.ordinary = true)
    (step : Scheduling s l ms s') : s'.Ordinary := by
  cases step with
  | wakes st ts live sched alive idling =>
    intro t liveT
    rw [sched, Sched.foldl_wakeUp_isSystemTask, Sched.setState_isSystemTask]
    exact h t (alive ▸ liveT)
  | switches calm holds first sched alive idling =>
    intro t liveT
    rw [sched, Sched.switchTo_isSystemTask]
    exact h t (alive ▸ liveT)
  | resumes idles sched alive idling =>
    intro t liveT
    rw [sched, Sched.setState_isSystemTask]
    exact h t (alive ▸ liveT)
  | releases u b live finish ne sched empty alive idling =>
    intro t liveT
    rw [alive, Function.update_apply] at liveT
    rw [sched]
    split at liveT
    · cases liveT
    · exact h t liveT
  | @creates _ u system auto eq dead sched alive idling =>
    subst eq
    intro t liveT
    rw [alive, Function.update_apply] at liveT
    rw [sched, Sched.ehTaskCreate, Sched.ehTaskWakeUp_isSystemTask]
    dsimp only
    by_cases eq : t = u
    · subst eq
      simpa [Label.ordinary] using label
    · rw [Function.update_of_ne eq]
      exact h t (by simpa [eq] using liveT)
  | _ =>
    intro t liveT
    simp_all [Eh.Ordinary]

section Runs
variable [DecidableEq O] [DecidableEq P] {mss : List (List (Turn T))}

theorem Shows.run (inv : Invariant sys s) (ordinary : s.Ordinary) (shows_ : Shows s q)
    (run : Run (Eh.TurnStep sys) s mss s') :
    Invariant sys s' ∧ s'.Ordinary ∧ ∃ q', Run Turns.Step q mss.flatten q' ∧ Shows s' q' := by
  induction run with
  | nil => exact ⟨inv, ordinary, q, .nil q, shows_⟩
  | @snoc mid after mss ms before last ih =>
    obtain ⟨inv', ordinary', mid, turns, shown⟩ := ih
    obtain ⟨l, label, step, rfl⟩ := last
    have sched := Eh.scheduling inv' step
    obtain ⟨q', more, shown'⟩ := sched.shows inv' ordinary' label shown
    refine ⟨inv'.step step, ordinary'.step label sched, q', ?_, shown'⟩
    rw [List.flatten_append, List.flatten_singleton]
    exact turns.append more

/-- In a run without system tasks the ring is a queue: a wake-up appends to it, a switch takes
its head and appends the current task if that is ready. So the tasks are switched to in the
order in which they became ready, and while a task is ready every other one runs once at
most. -/
theorem ehTaskNext_first_in_first_out (sys : System T O W C A) (main : T) (world : W)
    {before after : List (List (Turn T))} {s s' : Eh T O P W C A}
    (start : Run (Eh.TurnStep sys) (Eh.init main world) before s)
    (run : Run (Eh.TurnStep sys) s after s') :
    ∃ q q' : Turns T, Shows s q ∧ Shows s' q' ∧
      (∀ t, t ∈ q.queue ↔ s.alive t = true ∧ t ≠ s.self ∧ s.sched.state t = .ready) ∧
      Run Turns.Step ⟨main, [], false⟩ before.flatten q ∧
      Run Turns.Step q after.flatten q' ∧
      before.flatten.flatMap Turn.readied = before.flatten.flatMap Turn.served ++ q.queue ∧
      q.queue ++ after.flatten.flatMap Turn.readied =
        after.flatten.flatMap Turn.served ++ q'.queue ∧
      ∀ t ∈ q.queue, t ∉ after.flatten.flatMap Turn.served →
        (q.ran after.flatten).Nodup := by
  have first : Shows (Eh.init main world : Eh T O P W C A) ⟨main, [], false⟩ :=
    ⟨rfl, Links.ring_singleton.mpr ⟨rfl, rfl⟩, rfl⟩
  obtain ⟨inv, ordinary, q, turns, shown⟩ := first.run (.init sys main world) (fun _ _ => rfl) start
  obtain ⟨-, -, q', turns', shown'⟩ := shown.run inv ordinary run
  have distinct : q.Distinct := by
    have alone : Turns.Distinct (⟨main, [], false⟩ : Turns T) := List.nodup_singleton main
    exact alone.run turns
  refine ⟨q, q', shown, shown', shown.mem_queue inv, turns, turns', ?_, Turns.run_queue turns',
    fun t mem unserved => Turns.ran_nodup distinct turns' mem unserved⟩
  simpa using Turns.run_queue turns

def Eh.turnsOf (sys : System T O W C A) (s : Eh T O P W C A) :
    List (Label T O P C A) → List (List (Turn T))
  | [] => []
  | l :: ls =>
    s.turns sys l ::
      match s.step sys l with
      | some s' => s'.turnsOf sys ls
      | none => []

theorem Eh.turnsOf_run (ls : List (Label T O P C A)) (labels : ls.all Label.ordinary = true)
    (runs : ls.foldlM (fun s l => Eh.step sys s l) s = some s') :
    Run (Eh.TurnStep sys) s (s.turnsOf sys ls) s' := by
  induction ls generalizing s with
  | nil =>
    cases runs
    exact .nil _
  | cons l ls ih =>
    rw [List.foldlM_cons] at runs
    obtain ⟨mid, step, rest⟩ := Option.bind_eq_some_iff.mp runs
    rw [List.all_cons, Bool.and_eq_true] at labels
    rw [Eh.turnsOf, step]
    exact .cons ⟨l, labels.1, step, rfl⟩ (ih labels.2 rest)

end Runs

def twoCreated : List (Label Nat Unit Unit Unit Empty) :=
  [.create 1 false false, .create 2 false false]

def twoYield : List (Label Nat Unit Unit Unit Empty) :=
  callThen .yield 4 ++ callThen .yield 3

theorem twoCreated_runs : (Eh.runs plain 0 () twoCreated).isSome = true := rfl

def afterTwo : Eh Nat Unit Unit Unit Unit Empty :=
  (Eh.runs plain 0 () twoCreated).get twoCreated_runs

theorem twoYield_runs : (twoYield.foldlM (fun s l => Eh.step plain s l)
    afterTwo).isSome = true := rfl

theorem ehTaskNext_first_in_first_out_two :
    (Eh.turnsOf plain afterTwo twoYield).flatten = [.switch 0 1 true, .switch 1 2 true] ∧
      ∃ q q' : Turns Nat, Shows afterTwo q ∧ q.queue ++ [0, 1] = [1, 2] ++ q'.queue := by
  refine ⟨rfl, ?_⟩
  obtain ⟨q, q', shown, -, -, -, -, -, order, -⟩ := ehTaskNext_first_in_first_out plain 0 ()
    (Eh.turnsOf_run twoCreated rfl (Option.some_get twoCreated_runs).symm)
    (Eh.turnsOf_run twoYield rfl (Option.some_get twoYield_runs).symm)
  exact ⟨q, q', shown, order⟩

end EventHub.Kernel
