import EventHub.Kernel.Sched

/-! Which task is linked where. `Holds` ties the pointers to four lists of tasks, and every
operation of the scheduler is an edit of these lists. -/

namespace EventHub.Kernel
open Library

inductive Home where
  | ready
  | wait
  | finish
  | autoDestruct
deriving DecidableEq

def EhTask.home (t : EhTask) : Option Home :=
  match t.state with
  | .ready => some .ready
  | .runing => none
  | .wait => some .wait
  | .finish => some (if t.isAutoDestruct then .autoDestruct else .finish)

variable {T : Type} {s : Sched T} {alive : T → Prop} {l : Home → List T}
  {i j : Home} {t u : T} {rest : List T}

def Sched.head (s : Sched T) : Home → Node T
  | .ready => .task s.currentTask
  | .wait => .taskWaitListHead
  | .finish => .taskFinishListHead
  | .autoDestruct => .taskFinishAutoDestructListHead

def Sched.nodes (s : Sched T) (l : Home → List T) (i : Home) : List (Node T) :=
  s.head i :: (l i).map .task

structure Holds (s : Sched T) (alive : T → Prop) (l : Home → List T) : Prop where
  rings : Rings s.links (s.nodes l)
  current : alive s.currentTask
  mem : ∀ i t, t ∈ l i ↔ alive t ∧ t ≠ s.currentTask ∧ (s.task t).home = some i
  parked : ∀ t, alive t → t ≠ s.currentTask → s.state t ≠ .runing

theorem nodes_update (k : List T) :
    Function.update (s.nodes l) i (s.head i :: k.map .task) =
      s.nodes (Function.update l i k) := by
  funext j
  by_cases eq : j = i
  · subst eq
    simp [Sched.nodes]
  · simp [Sched.nodes, eq]

theorem task_mem_nodes :
    .task t ∈ s.nodes l i ↔ (i = .ready ∧ t = s.currentTask) ∨ t ∈ l i := by
  cases i <;> simp [Sched.nodes, Sched.head]

theorem list_nodup (h : Rings s.links (s.nodes l)) (i : Home) : (l i).Nodup :=
  (List.nodup_cons.mp (h.ring i).nodup).2.of_map

theorem home_unique (h : Rings s.links (s.nodes l)) (memI : t ∈ l i) (memJ : t ∈ l j) :
    i = j :=
  h.disjoint (task_mem_nodes.mpr (.inr memI)) (task_mem_nodes.mpr (.inr memJ))

namespace Holds

theorem congr {s' : Sched T} (h : Holds s alive l) (links : s'.links = s.links)
    (task : s'.task = s.task) (current : s'.currentTask = s.currentTask) :
    Holds s' alive l := by
  have head : s'.head = s.head := by
    funext i
    cases i <;> simp [Sched.head, current]
  have nodes : s'.nodes l = s.nodes l := by
    funext i
    rw [Sched.nodes, Sched.nodes, head]
  refine ⟨?_, ?_, ?_, ?_⟩
  · rw [nodes, links]
    exact h.rings
  · rw [current]
    exact h.current
  · intro i t
    rw [task, current]
    exact h.mem i t
  · intro t live ne
    rw [current] at ne
    rw [Sched.state, task]
    exact h.parked t live ne

theorem ring_next (h : Holds s alive l) (ready : l .ready = t :: rest) :
    s.links.next (.task s.currentTask) = .task t := by
  have ring := h.rings.ring .ready
  rw [Sched.nodes, ready] at ring
  exact ring.next

theorem ringEmpty [DecidableEq T] (h : Holds s alive l) :
    s.ringEmpty = true ↔ l .ready = [] := by
  rw [Sched.ringEmpty, decide_eq_true_iff]
  simpa [Sched.head] using (h.rings.ring .ready).next_self

theorem ready_of_next (h : Holds s alive l) (ne : l .ready ≠ [])
    (next : s.links.next (.task s.currentTask) = .task t) :
    ∃ rest, l .ready = t :: rest := by
  cases ready : l .ready with
  | nil => exact absurd ready ne
  | cons u rest =>
    have eq := (h.ring_next ready).symm.trans next
    cases eq
    exact ⟨rest, rfl⟩

theorem not_mem_nodes (h : Holds s alive l) (dead : ¬ alive t) (i : Home) :
    .task t ∉ s.nodes l i := by
  rw [task_mem_nodes]
  rintro (⟨-, rfl⟩ | mem)
  · exact dead h.current
  · exact dead ((h.mem i t).mp mem).1

theorem rings_turned (h : Holds s alive l) (ready : l .ready = t :: rest) :
    Rings s.links ({ s with currentTask := t }.nodes
      (Function.update l .ready (rest ++ [s.currentTask]))) := by
  have at_i : s.nodes l .ready =
      [Node.task s.currentTask] ++ (.task t :: rest.map .task) := by
    simp [Sched.nodes, Sched.head, ready]
  have same : { s with currentTask := t }.nodes
      (Function.update l .ready (rest ++ [s.currentTask])) =
        Function.update (s.nodes l) .ready
          ((.task t :: rest.map .task) ++ [Node.task s.currentTask]) := by
    funext i
    cases i <;> simp [Sched.nodes, Sched.head]
  rw [same]
  exact h.rings.rotate at_i

theorem state_of_mem (h : Holds s alive l) (mem : t ∈ l i) : (s.task t).home = some i :=
  ((h.mem i t).mp mem).2.2

end Holds

theorem home_ready : (s.task t).home = some .ready ↔ s.state t = .ready := by
  rw [EhTask.home, Sched.state]
  split <;> simp [*]
  split <;> simp

theorem home_wait : (s.task t).home = some .wait ↔ s.state t = .wait := by
  rw [EhTask.home, Sched.state]
  split <;> simp [*]
  split <;> simp

theorem home_finish : (s.task t).home = some .finish ↔
    s.state t = .finish ∧ (s.task t).isAutoDestruct = false := by
  rw [EhTask.home, Sched.state]
  split <;> simp [*]

theorem home_autoDestruct : (s.task t).home = some .autoDestruct ↔
    s.state t = .finish ∧ (s.task t).isAutoDestruct = true := by
  rw [EhTask.home, Sched.state]
  split <;> simp [*]

section Edit
variable [DecidableEq T]

theorem mem_moved {k : List T} (only : ∀ m, t ∈ l m → m = i) (nodup : (l i).Nodup)
    (ne : i ≠ j) (added : ∀ x, x ∈ k ↔ x = t ∨ x ∈ l j) (m : Home) (x : T) :
    x ∈ Function.update (Function.update l i ((l i).erase t)) j k m ↔
      if x = t then m = j else x ∈ l m := by
  by_cases eqJ : m = j
  · subst eqJ
    simp [added]
    grind
  · rw [Function.update_of_ne eqJ]
    by_cases eqI : m = i
    · subst eqI
      rw [Function.update_self, nodup.mem_erase_iff]
      grind
    · rw [Function.update_of_ne eqI]
      have := only m
      grind

theorem rings_unlink (h : Rings s.links (s.nodes l)) (mem : t ∈ l i) :
    Rings (s.links.unlink (.task t)) (s.nodes (Function.update l i ((l i).erase t))) ∧
      ∀ j, .task t ∉ s.nodes (Function.update l i ((l i).erase t)) j := by
  obtain ⟨before, after, -, split, erased⟩ := List.exists_erase_eq mem
  have at_i : s.nodes l i = (s.head i :: before.map .task) ++ .task t :: after.map .task := by
    simp [Sched.nodes, split]
  have same : Function.update (s.nodes l) i
      ((s.head i :: before.map .task) ++ after.map .task) =
        s.nodes (Function.update l i ((l i).erase t)) := by
    rw [erased, ← nodes_update]
    simp
  rw [← same]
  exact ⟨h.unlink at_i, h.unlink_out at_i⟩

theorem rings_moveTail (h : Rings s.links (s.nodes l)) (mem : t ∈ l i) (ne : i ≠ j) :
    Rings (s.links.moveTail (.task t) (s.head j))
      (s.nodes (Function.update (Function.update l i ((l i).erase t)) j (l j ++ [t]))) := by
  obtain ⟨unlinked, out⟩ := rings_unlink h mem
  have at_j : s.nodes (Function.update l i ((l i).erase t)) j =
      s.head j :: (l j).map .task := by
    simp [Sched.nodes, ne.symm]
  have := unlinked.addTail at_j out
  rw [← nodes_update, List.map_append]
  exact this

theorem rings_move (h : Rings s.links (s.nodes l)) (mem : t ∈ l i) (ne : i ≠ j) :
    Rings (s.links.move (.task t) (s.head j))
      (s.nodes (Function.update (Function.update l i ((l i).erase t)) j (t :: l j))) := by
  obtain ⟨unlinked, out⟩ := rings_unlink h mem
  have at_j : s.nodes (Function.update l i ((l i).erase t)) j =
      s.head j :: (l j).map .task := by
    simp [Sched.nodes, ne.symm]
  have := unlinked.add at_j out
  rw [← nodes_update, List.map_cons]
  exact this

/-- The lists after `eh_task_wake_up`. -/
def woken (s : Sched T) (l : Home → List T) (t : T) : Home → List T :=
  if s.state t ≠ .wait ∨ t = s.currentTask then l
  else Function.update (Function.update l .wait ((l .wait).erase t)) .ready
    (if (s.task t).isSystemTask then t :: l .ready else l .ready ++ [t])

/-- The lists after a switch to the first of the ready ones, the others being `rest`. -/
def switched (s : Sched T) (l : Home → List T) (rest : List T) : Home → List T :=
  match s.state s.currentTask with
  | .ready | .runing => Function.update l .ready (rest ++ [s.currentTask])
  | .wait =>
    Function.update (Function.update l .ready rest) .wait (l .wait ++ [s.currentTask])
  | .finish =>
    if (s.task s.currentTask).isAutoDestruct then
      Function.update (Function.update l .ready rest) .autoDestruct
        (l .autoDestruct ++ [s.currentTask])
    else
      Function.update (Function.update l .ready rest) .finish (l .finish ++ [s.currentTask])

def created (l : Home → List T) (t : T) (isSystemTask : Bool) : Home → List T :=
  Function.update l .ready (if isSystemTask then t :: l .ready else l .ready ++ [t])

theorem setState_task_of_ne (s : Sched T) {t u : T} (ne : u ≠ t) (st : TaskState) :
    (s.setState t st).task u = s.task u := by
  simp [Sched.setState, ne]

namespace Holds

theorem setState_current (h : Holds s alive l) (st : TaskState) :
    Holds (s.setState s.currentTask st) alive l where
  rings := h.rings
  current := h.current
  mem i t := by
    rw [h.mem i t]
    refine and_congr_right fun _ => and_congr_right fun ne => ?_
    rw [setState_task_of_ne s ne]
  parked t live ne := by
    have := h.parked t live ne
    rw [Sched.setState_currentTask] at ne
    rw [Sched.setState_state, if_neg ne]
    exact this

theorem ehTaskWakeUp (h : Holds s alive l) (live : alive t) :
    Holds (s.ehTaskWakeUp t) alive (woken s l t) := by
  by_cases quiet : s.state t ≠ .wait
  · rw [Sched.ehTaskWakeUp, woken, if_pos quiet, if_pos (.inl quiet)]
    exact h
  have waits : s.state t = .wait := not_not.mp quiet
  by_cases cur : t = s.currentTask
  · rw [Sched.ehTaskWakeUp, woken, if_neg quiet, if_pos cur, if_pos (.inr cur), cur]
    exact h.setState_current .ready
  have mem : t ∈ l .wait := (h.mem .wait t).mpr ⟨live, cur, home_wait.mpr waits⟩
  have only : ∀ m, t ∈ l m → m = .wait := fun m memM => home_unique h.rings memM mem
  have nodup := list_nodup h.rings .wait
  rw [woken, if_neg (by simp [waits, cur])]
  refine ⟨?_, ?_, ?_, ?_⟩
  · rw [Sched.ehTaskWakeUp, if_neg quiet, if_neg cur]
    split
    · exact rings_move (j := .ready) h.rings mem (by decide)
    · exact rings_moveTail (j := .ready) h.rings mem (by decide)
  · rw [Sched.ehTaskWakeUp_currentTask]
    exact h.current
  · intro i x
    rw [Sched.ehTaskWakeUp_currentTask, mem_moved only nodup (by decide)
      (by split <;> simp [or_comm])]
    by_cases eq : x = t
    · subst eq
      have st : (s.ehTaskWakeUp x).state x = .ready := by simp [waits]
      rw [if_pos rfl]
      have home := home_ready.mpr st
      rw [home]
      simp [live, cur, eq_comm]
    · have same : (s.ehTaskWakeUp t).task x = s.task x := by
        rw [Sched.ehTaskWakeUp]
        rw [if_neg quiet, if_neg cur]
        split <;> exact setState_task_of_ne s eq _
      rw [if_neg eq, same]
      exact h.mem i x
  · intro x liveX ne
    rw [Sched.ehTaskWakeUp_currentTask] at ne
    rw [Sched.ehTaskWakeUp_state]
    split
    · simp
    · exact h.parked x liveX ne

theorem woken_autoDestruct (s : Sched T) (l : Home → List T) (t : T) :
    woken s l t .autoDestruct = l .autoDestruct := by
  rw [woken]
  split
  · rfl
  · simp

theorem foldl_wakeUp (h : Holds s alive l) (ts : List T) (live : ∀ t ∈ ts, alive t) :
    ∃ l', Holds (ts.foldl Sched.ehTaskWakeUp s) alive l' ∧
      l' .autoDestruct = l .autoDestruct := by
  induction ts generalizing s l with
  | nil => exact ⟨l, h, rfl⟩
  | cons t ts ih =>
    obtain ⟨l', holds, same⟩ := ih (h.ehTaskWakeUp (live t (by simp)))
      fun u mem => live u (by simp [mem])
    exact ⟨l', holds, same.trans (woken_autoDestruct s l t)⟩

theorem arrive {s' : Sched T} {l' : Home → List T} {d : Home} (h : Holds s alive l)
    (ready : l .ready = t :: rest) (rings : Rings s'.links (s'.nodes l'))
    (current : s'.currentTask = t)
    (lists : ∀ i x, x ∈ l' i ↔ if x = s.currentTask then i = d else x ∈ l i ∧ x ≠ t)
    (old : (s'.task s.currentTask).home = some d)
    (others : ∀ x, x ≠ t → x ≠ s.currentTask → s'.task x = s.task x) :
    Holds s' alive l' := by
  have memT : t ∈ l .ready := by simp [ready]
  have liveT := ((h.mem .ready t).mp memT).1
  have neT := ((h.mem .ready t).mp memT).2.1
  refine ⟨rings, current ▸ liveT, ?_, ?_⟩
  · intro i x
    rw [lists, current]
    by_cases eq : x = s.currentTask
    · subst eq
      rw [if_pos rfl, old]
      simp [h.current, neT.symm, eq_comm]
    · rw [if_neg eq, h.mem]
      by_cases eqT : x = t
      · simp [eqT]
      · rw [others x eqT eq]
        simp [eq, eqT]
  · intro x live ne
    rw [current] at ne
    by_cases eq : x = s.currentTask
    · subst eq
      intro runs
      have := old
      rw [Sched.state] at runs
      simp [EhTask.home, runs] at this
    · rw [Sched.state, others x ne eq]
      exact h.parked x live eq

theorem rings_left (h : Holds s alive l) (ready : l .ready = t :: rest) (ne : .ready ≠ j) :
    Rings (s.links.moveTail (.task s.currentTask) ({ s with currentTask := t }.head j))
      ({ s with currentTask := t }.nodes
        (Function.update (Function.update l .ready rest) j (l j ++ [s.currentTask]))) := by
  have outRest : s.currentTask ∉ rest := fun mem =>
    ((h.mem .ready _).mp (ready ▸ List.mem_cons_of_mem t mem)).2.1 rfl
  have moved := rings_moveTail (s := { s with currentTask := t }) (t := s.currentTask)
    (h.rings_turned ready) (i := .ready) (by simp) ne
  have erased : (Function.update l .ready (rest ++ [s.currentTask]) .ready).erase
      s.currentTask = rest := by
    simp [List.erase_append_right _ outRest]
  rw [erased] at moved
  simpa [ne.symm] using moved

theorem switchTo (h : Holds s alive l) (ready : l .ready = t :: rest) :
    Holds (s.switchTo t) alive (switched s l rest) := by
  have outCur : ∀ i, s.currentTask ∉ l i := fun i mem => ((h.mem i _).mp mem).2.1 rfl
  have nodup : (t :: rest).Nodup := ready ▸ list_nodup h.rings .ready
  have memT : t ∈ l .ready := by simp [ready]
  have onlyT : ∀ i, t ∈ l i → i = .ready := fun i mem => home_unique h.rings mem memT
  have neT : s.currentTask ≠ t := fun eq => outCur .ready (eq ▸ memT)
  have lists : ∀ j, ∀ i x,
      x ∈ Function.update (Function.update l .ready rest) j
        (Function.update l .ready rest j ++ [s.currentTask]) i ↔
        if x = s.currentTask then i = j else x ∈ l i ∧ x ≠ t := by
    intro j i x
    have := outCur i
    have := onlyT i
    by_cases eqJ : i = j <;> by_cases eqR : i = .ready
    · subst eqJ
      subst eqR
      simp only [Function.update_self, List.mem_append, List.mem_singleton]
      grind
    · subst eqJ
      simp only [Function.update_self, Function.update_of_ne eqR, List.mem_append,
        List.mem_singleton]
      grind
    · subst eqR
      rw [Function.update_of_ne eqJ, Function.update_self]
      grind
    · rw [Function.update_of_ne eqJ, Function.update_of_ne eqR]
      grind
  have others : ∀ x, x ≠ t → x ≠ s.currentTask → (s.switchTo t).task x = s.task x := by
    intro x neX neCur
    rw [Sched.switchTo, setState_task_of_ne _ neX, Sched.putAway]
    split
    · exact setState_task_of_ne _ neCur _
    · exact setState_task_of_ne _ neCur _
    · rfl
    · split <;> rfl
  have current := Sched.switchTo_currentTask s t
  have nodes : ∀ k, (s.switchTo t).nodes k = { s with currentTask := t }.nodes k := by
    intro k
    funext i
    cases i <;> simp [Sched.nodes, Sched.head]
  have state := Sched.switchTo_state s t s.currentTask
  have links := Sched.switchTo_links s t
  rw [if_neg neT] at state
  rw [switched]
  cases st : s.state s.currentTask with
  | ready =>
    rw [st] at links state
    refine h.arrive ready (d := .ready) ?_ current ?_ (home_ready.mpr (by simpa using state))
      others
    · rw [links, nodes]
      exact h.rings_turned ready
    · simpa using lists .ready
  | runing =>
    rw [st] at links state
    refine h.arrive ready (d := .ready) ?_ current ?_ (home_ready.mpr (by simpa using state))
      others
    · rw [links, nodes]
      exact h.rings_turned ready
    · simpa using lists .ready
  | wait =>
    rw [st] at links state
    refine h.arrive ready (d := .wait) ?_ current ?_ (home_wait.mpr (by simpa using state))
      others
    · rw [links, nodes]
      exact h.rings_left ready (j := .wait) (by decide)
    · simpa using lists .wait
  | finish =>
    rw [st] at links state
    dsimp only at links ⊢
    have auto := Sched.switchTo_isAutoDestruct s t s.currentTask
    split
    · next isAuto =>
      rw [if_pos isAuto] at links
      refine h.arrive ready (d := .autoDestruct) ?_ current ?_
        (home_autoDestruct.mpr ⟨by simpa using state, auto.trans isAuto⟩) others
      · rw [links, nodes]
        exact h.rings_left ready (j := .autoDestruct) (by decide)
      · simpa using lists .autoDestruct
    · next notAuto =>
      rw [if_neg notAuto] at links
      refine h.arrive ready (d := .finish) ?_ current ?_
        (home_finish.mpr ⟨by simpa using state, by simpa [auto] using notAuto⟩) others
      · rw [links, nodes]
        exact h.rings_left ready (j := .finish) (by decide)
      · simpa using lists .finish

theorem ehTaskCreate (h : Holds s alive l) (dead : ¬ alive t) (sys auto : Bool) :
    Holds (s.ehTaskCreate t sys auto) (fun x => alive x ∨ x = t) (created l t sys) := by
  have neT : t ≠ s.currentTask := fun eq => dead (eq ▸ h.current)
  have out := h.not_mem_nodes dead
  have alone : Rings ((s.links.alone (.task t)).unlink (.task t)) (s.nodes l) := by
    apply h.rings.congr_out out
    intro y ne
    simp [Links.unlink, ne]
  have rings : Rings (s.ehTaskCreate t sys auto).links (s.nodes (created l t sys)) := by
    rw [Sched.ehTaskCreate, Sched.ehTaskWakeUp, created, ← nodes_update]
    cases sys
    · have := alone.addTail (i := .ready) rfl out
      simpa [Sched.state, Sched.head, neT, Links.moveTail] using this
    · have := alone.add (i := .ready) rfl out
      simpa [Sched.state, Sched.head, neT, Links.move] using this
  have nodes : ∀ k, (s.ehTaskCreate t sys auto).nodes k = s.nodes k := by
    intro k
    funext i
    cases i <;> simp [Sched.nodes, Sched.head]
  have others : ∀ x, x ≠ t → (s.ehTaskCreate t sys auto).task x = s.task x := by
    intro x ne
    rw [Sched.ehTaskCreate, Sched.ehTaskWakeUp]
    split_ifs <;> simp [Sched.setState, ne]
  have outT : ∀ i, t ∉ l i := fun i mem => dead ((h.mem i t).mp mem).1
  refine ⟨nodes _ ▸ rings, ?_, ?_, ?_⟩
  · left
    simpa using h.current
  · intro i x
    rw [Sched.ehTaskCreate_currentTask]
    by_cases eq : x = t
    · subst eq
      have home := home_ready.mpr (show (s.ehTaskCreate x sys auto).state x = .ready by simp)
      rw [home, created]
      by_cases eqI : i = .ready
      · subst eqI
        cases sys <;> simp [neT]
      · simp [eqI, outT, eq_comm]
    · rw [others x eq, created]
      have := h.mem i x
      by_cases eqI : i = .ready
      · subst eqI
        cases sys <;> simpa [eq] using this
      · simpa [eqI, eq] using this
  · intro x live ne
    rw [Sched.ehTaskCreate_currentTask] at ne
    rw [Sched.ehTaskCreate_state]
    by_cases eq : x = t
    · simp [eq]
    · rw [if_neg eq]
      exact h.parked x (live.resolve_right eq) ne

theorem ehListDel (h : Holds s alive l) (mem : t ∈ l i) :
    Holds (s.ehListDel t) (fun x => alive x ∧ x ≠ t)
      (Function.update l i ((l i).erase t)) := by
  obtain ⟨unlinked, out⟩ := rings_unlink h.rings mem
  have neT := ((h.mem i t).mp mem).2.1
  refine ⟨?_, ⟨h.current, neT.symm⟩, ?_, fun x live ne => h.parked x live.1 ne⟩
  · apply unlinked.congr_out out
    intro y ne
    simp [Sched.ehListDel, Links.setNext, Links.setPrev, ne]
  · intro j x
    have memX := h.mem j x
    have only := fun memJ : t ∈ l j => home_unique h.rings memJ mem
    by_cases eq : j = i
    · subst eq
      rw [Function.update_self, (list_nodup h.rings j).mem_erase_iff, memX]
      simp only [Sched.ehListDel]
      tauto
    · rw [Function.update_of_ne eq, memX]
      simp only [Sched.ehListDel]
      grind

end Holds

end Edit

end EventHub.Kernel
