import EventHub.Kernel.Scheduling
import EventHub.Kernel.Wakeup

/-! The list of the finished detached tasks: what a step does to it, and the pass of
`_task_auto_destruct` that empties it. -/

namespace EventHub.Kernel
open Library Event

variable {T O P W C A : Type}

/-- A task has finished and is detached, so that `auto_destruct_task` is linked. -/
def Eh.Reclaims (s : Eh T O P W C A) : Prop :=
  s.sched.links.next .taskFinishAutoDestructListHead ≠ .taskFinishAutoDestructListHead →
    s.sched.autoDestructTask = true

/-- Inside `_eh_poll_run`. -/
def Point.polling : Point T P C A → Bool
  | .poll _ _ _ => true
  | _ => false

def Label.isGo : Label T O P C A → Bool
  | .go => true
  | _ => false

/-- The most steps that the running task still takes in `_eh_poll_run`, with so many tasks in
the list. -/
def Point.pollRest (n : Nat) : Point T P C A → Nat
  | .poll .start _ _ => 2 * n + 1
  | .poll (.destroy _ _) _ _ => 2 * n
  | .poll (.unlink _ _) _ _ => 2 * n - 1
  | _ => 0

/-- The list `k` becomes `k'` in a step to the state `s'`. -/
inductive AutoList (s s' : Eh T O P W C A) [DecidableEq T] (k k' : List T) : Prop
  | kept : k' = k → s'.sched.autoDestructTask = s.sched.autoDestructTask → AutoList s s' k k'
  | empty : k = [] → k' = [] → AutoList s s' k k'
  | left (u : T) : k' = k.erase u → s'.alive u = false →
      (s'.sched.autoDestructTask = s.sched.autoDestructTask ∨ k' = []) → AutoList s s' k k'
  | came : k' = k ++ [s.self] → s'.sched.autoDestructTask = true → AutoList s s' k k'

theorem autoNode_eq_head {k : List T} :
    autoNode k = .taskFinishAutoDestructListHead ↔ k = [] := by
  cases k <;> simp [autoNode]

theorem Holds.auto_empty {s : Sched T} {alive : T → Prop} {lists : Home → List T}
    (h : Holds s alive lists) :
    s.links.next .taskFinishAutoDestructListHead = .taskFinishAutoDestructListHead ↔
      lists .autoDestruct = [] := by
  rw [first_autoDestruct h, autoNode_eq_head]

theorem switched_autoDestruct (s : Sched T) (lists : Home → List T) (rest : List T) :
    switched s lists rest .autoDestruct = lists .autoDestruct ++
      (if s.state s.currentTask = .finish ∧ (s.task s.currentTask).isAutoDestruct = true then
        [s.currentTask] else []) := by
  rw [switched]
  cases s.state s.currentTask with
  | finish =>
    dsimp only
    split
    · next auto => simp [auto]
    · next auto => simp [auto]
  | _ => simp

theorem Holds.unique {s : Sched T} {alive alive' : T → Prop} {lists lists' : Home → List T}
    (h : Holds s alive lists) (h' : Holds s alive' lists') (i : Home) : lists i = lists' i := by
  have same : (lists i).map Node.task = (lists' i).map .task :=
    (h.rings.ring i).unique (h'.rings.ring i)
  exact List.map_injective_iff.mpr (fun _ _ eq => by cases eq; rfl) same

theorem pollEnd_polling (idle : Bool) (k : After T P C) :
    (pollEnd idle k : Point T P C A).polling = false := by
  cases idle <;> rfl

variable [DecidableEq T] {sys : System T O W C A} {s s' : Eh T O P W C A}
  {l : Label T O P C A} {ms : List (Turn T)} {lists : Home → List T}

theorem Sched.switchTo_autoDestructTask (s : Sched T) (u : T) :
    (s.switchTo u).autoDestructTask =
      (s.autoDestructTask ||
        decide (s.state s.currentTask = .finish) && (s.task s.currentTask).isAutoDestruct) := by
  rw [switchTo, putAway]
  have same : state { s with currentTask := u } s.currentTask = s.state s.currentTask := rfl
  rw [same]
  cases s.state s.currentTask with
  | finish =>
    dsimp only
    split
    · next auto => simp [setState, auto]
    · next auto => simp [setState, auto]
  | _ => simp [setState]

/-- A step keeps the list, or takes out a task that it destroys, or puts a task in and links
`auto_destruct_task`. -/
theorem Scheduling.autoList (step : Scheduling s l ms s')
    (holds : Holds s.sched (s.alive · = true) lists) :
    ∃ lists', Holds s'.sched (s'.alive · = true) lists' ∧
      AutoList s s' (lists .autoDestruct) (lists' .autoDestruct) := by
  cases step with
  | still n sched alive idling =>
    refine ⟨lists, ?_, .kept rfl (by rw [sched])⟩
    rw [sched, alive]
    exact holds.congr rfl rfl rfl
  | wakes st ts live sched alive idling =>
    obtain ⟨lists', holds', same⟩ := (holds.setState_current st).foldl_wakeUp ts live
    refine ⟨lists', ?_, .kept same ?_⟩
    · rw [sched, alive]
      exact holds'
    · rw [sched, Sched.foldl_wakeUp_autoDestructTask]
      rfl
  | polled empty sched alive idling =>
    have none := holds.auto_empty.mp empty
    refine ⟨lists, ?_, .empty none none⟩
    rw [sched, alive]
    exact holds.congr rfl rfl rfl
  | releases u b live finish ne sched empty alive idling =>
    obtain ⟨i, mem⟩ : ∃ i, u ∈ lists i := by
      cases auto : (s.sched.task u).isAutoDestruct
      · exact ⟨.finish, (holds.mem _ u).mpr ⟨live, ne, home_finish.mpr ⟨finish, auto⟩⟩⟩
      · exact ⟨.autoDestruct,
          (holds.mem _ u).mpr ⟨live, ne, home_autoDestruct.mpr ⟨finish, auto⟩⟩⟩
    have aliveEq : (fun t => s'.alive t = true) = fun t => s.alive t = true ∧ t ≠ u := by
      funext t
      rw [alive, Function.update_apply]
      by_cases eq : t = u <;> simp [eq]
    have left : Holds s'.sched (s'.alive · = true)
        (Function.update lists i ((lists i).erase u)) := by
      rw [aliveEq, sched]
      exact (holds.ehListDel mem).congr rfl rfl rfl
    have erased : Function.update lists i ((lists i).erase u) .autoDestruct =
        (lists .autoDestruct).erase u := by
      by_cases eq : Home.autoDestruct = i
      · subst eq
        rw [Function.update_self]
      · rw [Function.update_of_ne eq, List.erase_of_not_mem]
        exact fun memA => eq (home_unique holds.rings memA mem)
    refine ⟨_, left, .left u erased (by rw [alive, Function.update_self]) ?_⟩
    rcases empty with same | empty
    · left
      rw [sched, ← same]
    · right
      exact left.auto_empty.mp empty
  | idles none sched alive idling =>
    exact ⟨lists, by rw [sched, alive]; exact holds, .kept rfl (by rw [sched])⟩
  | resumes idles sched alive idling =>
    refine ⟨lists, ?_, .kept rfl (by rw [sched]; rfl)⟩
    rw [sched, alive]
    exact holds.setState_current .runing
  | stays idles sched alive idling =>
    exact ⟨lists, by rw [sched, alive]; exact holds, .kept rfl (by rw [sched])⟩
  | @switches _ u rest lists' calm holds' first sched alive idling =>
    have ready : lists .ready = u :: rest := (holds.unique holds' .ready).trans first
    refine ⟨switched s.sched lists rest, ?_, ?_⟩
    · rw [sched, alive]
      exact holds.switchTo ready
    · rw [switched_autoDestruct]
      by_cases goes : s.sched.state s.sched.currentTask = .finish ∧
          (s.sched.task s.sched.currentTask).isAutoDestruct = true
      · rw [if_pos goes]
        refine .came rfl ?_
        rw [sched, Sched.switchTo_autoDestructTask]
        simp [goes]
      · rw [if_neg goes]
        refine .kept (List.append_nil _) ?_
        rw [sched, Sched.switchTo_autoDestructTask]
        have no : (decide (s.sched.state s.sched.currentTask = .finish) &&
            (s.sched.task s.sched.currentTask).isAutoDestruct) = false := by
          simpa using goes
        rw [no, Bool.or_false]
  | @creates _ t system auto eq dead sched alive idling =>
    have aliveEq : (fun x => s'.alive x = true) = fun x => s.alive x = true ∨ x = t := by
      funext x
      rw [alive, Function.update_apply]
      by_cases eq : x = t <;> simp [eq]
    refine ⟨created lists t system, ?_, .kept ?_ ?_⟩
    · rw [aliveEq, sched]
      exact holds.ehTaskCreate (by simp [dead]) system auto
    · rw [created, Function.update_of_ne (by decide)]
    · rw [sched, Sched.ehTaskCreate, Sched.ehTaskWakeUp_autoDestructTask]

theorem Eh.Reclaims.step (h : s.Reclaims) (inv : Invariant sys s)
    (step : Scheduling s l ms s') : s'.Reclaims := by
  obtain ⟨lists, holds, -⟩ := inv.sched.lists
  obtain ⟨lists', holds', change⟩ := step.autoList holds
  have before : lists .autoDestruct ≠ [] → s.sched.autoDestructTask = true := fun ne =>
    h (holds.auto_empty.not.mpr ne)
  intro next
  have ne : lists' .autoDestruct ≠ [] := holds'.auto_empty.not.mp next
  cases change with
  | kept same flag => exact flag.trans (before (same ▸ ne))
  | empty old new => exact absurd new ne
  | left u erased dead flag =>
    rw [erased] at ne
    have old : lists .autoDestruct ≠ [] := fun nil => ne (by rw [nil]; rfl)
    exact (flag.resolve_right (erased ▸ ne)).trans (before old)
  | came put flag => exact flag

theorem Scheduling.linked_auto (step : Scheduling s l ms s') (inv : Invariant sys s) {u : T}
    (linked : Linked s.sched.links .taskFinishAutoDestructListHead u) :
    Linked s'.sched.links .taskFinishAutoDestructListHead u ∨ s'.alive u = false := by
  obtain ⟨lists, holds, -⟩ := inv.sched.lists
  obtain ⟨lists', holds', change⟩ := step.autoList holds
  have mem : u ∈ lists .autoDestruct := ((holds.linked .autoDestruct u).mp linked).resolve_left
    fun both => by cases both.1
  have stays : u ∈ lists' .autoDestruct →
      Linked s'.sched.links .taskFinishAutoDestructListHead u ∨ s'.alive u = false :=
    fun mem => .inl ((holds'.linked .autoDestruct u).mpr (.inr mem))
  cases change with
  | kept same flag => exact stays (same ▸ mem)
  | empty old new =>
    rw [old] at mem
    cases mem
  | left v erased dead flag =>
    by_cases eq : u = v
    · exact .inr (eq ▸ dead)
    · exact stays (erased ▸ (List.mem_erase_of_ne eq).mpr mem)
  | came put flag => exact stays (put ▸ List.mem_append_left _ mem)

/-! The pass of `_task_auto_destruct`. -/

def PollsOn (s s' : Eh T O P W C A) (k k' : List T) (go : Bool) : Prop :=
  (s'.point s'.self).polling = true ∧
      (s'.point s'.self).pollRest k'.length + (if go then 1 else 0) ≤
        (s.point s.self).pollRest k.length ∨
    (s'.point s'.self).polling = false ∧ k' = []

theorem PollsOn.autoDestruct {x : Eh T O P W C A} {idle : Bool} {k : After T P C} {rest j : List T}
    {pos : Node T} (first : pos = autoNode rest)
    (more : 2 * rest.length + 1 ≤ (s.point s.self).pollRest j.length) :
    PollsOn s (x.autoDestruct pos idle k) j rest true := by
  rw [Eh.autoDestruct]
  split
  · next last =>
    have empty := autoNode_eq_head.mp (first ▸ last)
    refine .inr ⟨?_, empty⟩
    exact (congrArg Point.polling (setPoint_point _ x.self _)).trans (pollEnd_polling idle k)
  · left
    have at_ := setPoint_point x x.self
      (.poll (.destroy pos (x.sched.links.next pos)) idle k : Point T P C A)
    refine ⟨congrArg Point.polling at_, ?_⟩
    have rests := congrArg (Point.pollRest rest.length) at_
    rw [show ((x.setPoint x.self _).point (x.setPoint x.self _).self).pollRest rest.length =
      2 * rest.length from rests]
    simpa using more

theorem PollsOn.stirred (holds : Holds s.sched (s.alive · = true) lists) (st : Stirred s s')
    (polls : (s.point s.self).polling = true) :
    ∃ lists', Holds s'.sched (s'.alive · = true) lists' ∧
      PollsOn s s' (lists .autoDestruct) (lists' .autoDestruct) false := by
  obtain ⟨ts, live, sched⟩ := st.sched
  obtain ⟨lists', holds', same⟩ := holds.foldl_wakeUp ts live
  refine ⟨lists', ?_, .inl ?_⟩
  · rw [sched, st.alive]
    exact holds'
  · rw [st.point, st.currentTask, same]
    exact ⟨polls, by simp⟩

section Step
variable [DecidableEq O] [DecidableEq P]

theorem PollsOn.go (inv : Invariant sys s) (reclaims : s.Reclaims) {pp : PollPoint T}
    {idle : Bool} {k : After T P C} (at_ : s.point s.self = .poll pp idle k)
    (step : s.pollStep idle k pp = some s') (holds : Holds s.sched (s.alive · = true) lists) :
    ∃ lists', Holds s'.sched (s'.alive · = true) lists' ∧
      PollsOn s s' (lists .autoDestruct) (lists' .autoDestruct) true := by
  obtain ⟨lists₀, holds₀, pollOk⟩ := inv.sched.lists
  have same := holds.unique holds₀ .autoDestruct
  rw [at_] at pollOk
  rw [same]
  have first := first_autoDestruct holds₀
  cases pp with
  | start =>
    rw [Eh.pollStep] at step
    split at step
    · cases step
      refine ⟨lists₀, ?_, .autoDestruct first (by rw [at_]; exact le_rfl)⟩
      rw [Eh.autoDestruct]
      split <;> exact holds₀.congr rfl rfl rfl
    · next off =>
      cases step
      have empty : lists₀ .autoDestruct = [] := by
        rw [← holds₀.auto_empty]
        by_contra ne
        exact off (reclaims ne)
      refine ⟨lists₀, holds₀, .inr ⟨?_, empty⟩⟩
      exact (congrArg Point.polling (setPoint_point _ s.self _)).trans (pollEnd_polling idle k)
  | destroy pos n =>
    cases pos with
    | task u =>
      cases step
      obtain ⟨v, rest, list, -, -⟩ := pollOk
      have st := signal_stirred inv.event.owned (.clean (.task u))
      obtain ⟨ts, live, sched⟩ := st.sched
      obtain ⟨lists', holds', kept⟩ := holds₀.foldl_wakeUp ts live
      rw [← sched, ← st.alive] at holds'
      refine ⟨lists', holds', .inl ?_⟩
      have self : ((s.signal (.clean (.task u))).setPoint s.self
          (.poll (.unlink (.task u) n) idle k)).self = s.self := st.currentTask
      rw [self, setPoint_point, kept, at_, list]
      refine ⟨rfl, ?_⟩
      simp only [Point.pollRest, List.length_cons, if_true]
      omega
    | _ => cases step
  | unlink pos n =>
    cases pos with
    | task u =>
      cases step
      obtain ⟨v, rest, list, eq, next⟩ := pollOk
      cases eq
      have mem : u ∈ lists₀ .autoDestruct := by simp [list]
      have left := holds₀.ehListDel mem
      have rest_eq : Function.update lists₀ .autoDestruct ((lists₀ .autoDestruct).erase u)
          .autoDestruct = rest := by
        simp [list]
      have aliveEq : (fun t => (s.destroy u).alive t = true) =
          fun t => s.alive t = true ∧ t ≠ u := by
        funext t
        by_cases eq : t = u <;> simp [Eh.destroy, eq]
      rw [← aliveEq] at left
      have more : 2 * rest.length + 1 ≤
          (s.point s.self).pollRest (lists₀ .autoDestruct).length := by
        rw [at_, list]
        simp only [Point.pollRest, List.length_cons]
        omega
      refine ⟨_, ?_, rest_eq.symm ▸ PollsOn.autoDestruct next more⟩
      rw [Eh.autoDestruct]
      split <;> exact left.congr rfl rfl rfl
    | _ => cases step

theorem polling_step (inv : Invariant sys s) (reclaims : s.Reclaims)
    (polls : (s.point s.self).polling = true) (step : s.step sys l = some s')
    (holds : Holds s.sched (s.alive · = true) lists) :
    ∃ lists', Holds s'.sched (s'.alive · = true) lists' ∧
      PollsOn s s' (lists .autoDestruct) (lists' .autoDestruct) l.isGo := by
  cases Eh.step_cases step with
  | go step =>
    cases at_ : s.point s.self with
    | poll pp idle k =>
      rw [Eh.go, at_] at step
      exact PollsOn.go inv reclaims at_ step holds
    | _ =>
      rw [at_] at polls
      cases polls
  | user at_ step =>
    rw [at_] at polls
    cases polls
  | signal g => exact PollsOn.stirred holds (signal_stirred inv.event.owned g) polls
  | wakeUp live => exact PollsOn.stirred holds (.of_wakeUp live) polls
  | expire t => exact PollsOn.stirred holds (expire_stirred inv.event.owned t) polls
  | interrupt =>
    exact PollsOn.stirred holds { perform_stirred sys inv.event.owned _ with } polls
  | interruptGo =>
    exact PollsOn.stirred holds { perform_stirred sys inv.event.owned _ with } polls

theorem polling_go (inv : Invariant sys s) (polls : (s.point s.self).polling = true) :
    (s.step sys .go).isSome = true := by
  obtain ⟨lists, holds, pollOk⟩ := inv.sched.lists
  rw [Eh.step, Eh.go]
  cases at_ : s.point s.self with
  | poll pp idle k =>
    rw [at_] at pollOk
    cases pp with
    | start =>
      dsimp only
      rw [Eh.pollStep]
      split <;> rfl
    | destroy pos n =>
      obtain ⟨u, rest, -, rfl, -⟩ := pollOk
      rfl
    | unlink pos n =>
      obtain ⟨u, rest, -, rfl, -⟩ := pollOk
      rfl
  | _ =>
    rw [at_] at polls
    cases polls

end Step

end EventHub.Kernel
