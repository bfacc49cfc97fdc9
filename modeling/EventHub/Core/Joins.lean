import EventHub.Kernel.Cleaned
import EventHub.Kernel.Flow

/-! `eh_task_join`: the return values of the tasks, and what the joins make of them. -/

namespace EventHub.Core
open Library Event Kernel

/-- A join of this task has returned; `*ret` is stored when it destroys the task. -/
structure Joined (T : Type) where
  task : T
  ret : Int
  stored : Option Int
deriving DecidableEq

structure Joins (T O P W C A : Type) where
  wired : Wired T O P W C A
  taskRet : T → Int
  /-- `*ret` of the join that a task is in. -/
  stored : T → Int
  -- History: the joins that have returned.
  returned : List (Joined T)

/-- What may be in the memory of a task that was freed. -/
structure Debris (T O P : Type) where
  task : EhTask
  next : Node T
  prev : Node T
  headNext : EhNode T O P
  headPrev : EhNode T O P
  taskRet : Int

/-- The task that the code of `eh_task_join` is at work for. -/
def joining {T P C A : Type} : Point T P C A → Option T
  | .waitTimer w | .waitAdd w | .waitLoop w | .waitEnd w _ | .returned w _ => w.joined
  | .destroying u => some u
  | _ => none

def Joined.Fair {T : Type} (j : Joined T) (taskRet : Int) : Prop :=
  j.ret = ehRetOk ∧ j.stored = some taskRet ∨ j.ret = ehRetTimeout ∨ j.ret = ehRetEventError

namespace Joins

section Code
variable {T O P W C A : Type} [DecidableEq T]

abbrev eh (x : Joins T O P W C A) : Eh T O P W C A := x.wired.eh

/-- `ret` is what the task function returns, or the argument of `eh_task_exit`. -/
def retStep (x : Joins T O P W C A) (ret : Int) : Label T O P C A → T → Int
  | .ret | .exit => Function.update x.taskRet x.eh.self ret
  | .create t _ _ => Function.update x.taskRet t 0
  | _ => x.taskRet

/-- `*ret = task->task_ret`. -/
def storedStep (x : Joins T O P W C A) : Label T O P C A → T → Int
  | .go =>
    match x.eh.point x.eh.self with
    | .returned w ret =>
      match w.joined with
      | some u => if ret < 0 then x.stored else Function.update x.stored x.eh.self (x.taskRet u)
      | none => x.stored
    | _ => x.stored
  | _ => x.stored

def returns (x : Joins T O P W C A) : Label T O P C A → Option (Joined T)
  | .go =>
    match x.eh.point x.eh.self with
    | .returned w ret =>
      match w.joined with
      | some u => if ret < 0 then some ⟨u, ret, none⟩ else none
      | none => none
    | .destroying u => some ⟨u, ehRetOk, some (x.stored x.eh.self)⟩
    | _ => none
  | _ => none

def overwriteEh (s : Eh T O P W C A) (u : T) (d : Debris T O P) : Eh T O P W C A :=
  { s with sched := { s.sched with
    task := Function.update s.sched.task u d.task
    links := (s.sched.links.setNext (.task u) d.next).setPrev (.task u) d.prev } }

variable [DecidableEq O] [DecidableEq P]

def step (sys : System T O W C A) (x : Joins T O P W C A) (k : Label T O P C A × Int) :
    Option (Joins T O P W C A) :=
  (x.wired.step sys k.1).map fun wired =>
    { wired := wired
      taskRet := x.retStep k.2 k.1
      stored := x.storedStep k.1
      returned := x.returned ++ (x.returns k.1).toList }

def init (main : T) (world : W) : Joins T O P W C A :=
  ⟨.init main world, fun _ => 0, fun _ => 0, []⟩

def Reachable (sys : System T O W C A) (main : T) (world : W) (x : Joins T O P W C A) : Prop :=
  ∃ ks, Run (fun x k y => step sys x k = some y) (init main world) ks x

def overwrite (x : Joins T O P W C A) (u : T) (d : Debris T O P) : Joins T O P W C A :=
  { x with
    wired :=
      { eh := overwriteEh x.eh u d
        links := (x.wired.links.setNext (.head (.task u)) d.headNext).setPrev (.head (.task u))
          d.headPrev }
    taskRet := Function.update x.taskRet u d.taskRet }

structure Ok (sys : System T O W C A) (x : Joins T O P W C A) : Prop where
  wired : x.wired.Ok sys
  results : ∀ {w ret u}, w.joined = some u →
    (x.eh.point x.eh.self = .waitEnd w ret ∨ x.eh.point x.eh.self = .returned w ret) →
      ret = ehRetOk ∨ ret = ehRetTimeout ∨ ret = ehRetEventError
  stored : ∀ {u}, x.eh.point x.eh.self = .destroying u →
    x.stored x.eh.self = x.taskRet u

/-- The step runs the code that frees the task; the task has returned and left its stack. -/
structure Frees (x : Joins T O P W C A) (u : T) : Prop where
  join : x.eh.point x.eh.self = .destroying u
  live : x.eh.alive u = true
  other : u ≠ x.eh.self
  finished : x.eh.sched.state u = .finish
  left : x.eh.point u = .resumed .finished

end Code

variable {T O P W C A : Type} [DecidableEq T] [DecidableEq O] [DecidableEq P]
  {sys : System T O W C A} {x y : Joins T O P W C A} {k : Label T O P C A × Int} {u : T}

theorem step_eq (step : x.step sys k = some y) : x.wired.step sys k.1 = some y.wired ∧
    y.taskRet = x.retStep k.2 k.1 ∧ y.stored = x.storedStep k.1 ∧
    y.returned = x.returned ++ (x.returns k.1).toList := by
  obtain ⟨wired, at_, rfl⟩ := Option.map_eq_some_iff.mp step
  exact ⟨at_, rfl, rfl, rfl⟩

/-! What every step keeps. -/

theorem check_results {s : Eh T O P W C A} {w : Wait T P C} {ret : Int}
    (joined : w.joined = some u) (leaves : (s.check sys w).1 = some ret) :
    ret = ehRetOk ∨ ret = ehRetTimeout ∨ ret = ehRetEventError := by
  obtain ⟨caller, timeout⟩ := w
  cases caller with
  | epoll q n => cases joined
  | object c => cases joined
  | join v =>
    rw [Eh.check] at leaves
    dsimp only [Eh.condition] at leaves
    split_ifs at leaves
    · cases leaves
      exact .inr (.inr rfl)
    · cases leaves
      exact .inl rfl
    · rw [Eh.checkTimer] at leaves
      dsimp only at leaves
      split at leaves
      · split at leaves <;> cases leaves
        · exact .inr (.inl rfl)
        · exact .inr (.inr rfl)
      · cases leaves

omit [DecidableEq T] [DecidableEq O] [DecidableEq P] in
theorem entry_results {s : Eh T O P W C A} {w v : Wait T P C} {ret : Int} {p : Point T P C A}
    (joined : v.joined = some u) (entry : Entry s w p)
    (at_ : p = .waitEnd v ret ∨ p = .returned v ret) :
    ret = ehRetOk ∨ ret = ehRetTimeout ∨ ret = ehRetEventError := by
  cases entry with
  | met finished plain =>
    rcases at_ with eq | eq <;> cases eq
    exact .inl rfl
  | timeout zero plain =>
    rcases at_ with eq | eq <;> cases eq
    exact .inr (.inl rfl)
  | read ret caller =>
    rcases at_ with eq | eq <;> cases eq
    rw [Wait.joined, caller] at joined
    cases joined
  | _ => rcases at_ with eq | eq <;> cases eq

omit [DecidableEq O] [DecidableEq P] in
theorem retStep_outside (x : Joins T O P W C A) (ret : Int) {l : Label T O P C A}
    (outside : l.outside = true) : x.retStep ret l = x.taskRet ∧ x.storedStep l = x.stored ∧
      x.returns l = none := by
  cases l with
  | signal g => exact ⟨rfl, rfl, rfl⟩
  | wakeUp t => exact ⟨rfl, rfl, rfl⟩
  | expire t => exact ⟨rfl, rfl, rfl⟩
  | interrupt a => exact ⟨rfl, rfl, rfl⟩
  | interruptGo i => exact ⟨rfl, rfl, rfl⟩
  | _ => cases outside

theorem Ok.step (h : x.Ok sys) (step : x.step sys k = some y) : y.Ok sys := by
  obtain ⟨l, ret⟩ := k
  obtain ⟨wired, taskRet, stored, -⟩ := step_eq step
  obtain ⟨at_, -, ok⟩ := h.wired.step wired
  have inv := h.wired.inv
  -- the task that is switched to is at no point of a join
  have parked : (y.eh.point y.eh.self).parked = true → y.Ok sys := by
    intro parked
    refine ⟨ok, fun _ eq => ?_, fun eq => ?_⟩
    · rcases eq with eq | eq <;> rw [eq] at parked <;> cases parked
    · rw [eq] at parked
      cases parked
  rcases step_self inv at_ with self | ⟨-, -, switched, -⟩
  swap
  · exact parked switched
  cases step_moved inv at_ with
  | @go _ p flow point =>
    have at' : y.eh.point y.eh.self = p := by rw [self, point, Function.update_self]
    refine ⟨ok, fun {w r u} joined eq => ?_, fun {u} eq => ?_⟩
    · rw [at'] at eq
      generalize before : x.eh.point x.eh.self = q at flow
      cases flow with
      | @leaves v r' leaves =>
        split at eq
        · rcases eq with eq | eq <;> cases eq
          exact check_results joined leaves
        · rcases eq with eq | eq <;> cases eq
          exact check_results joined leaves
      | ends =>
        rcases eq with eq | eq <;> cases eq
        exact h.results joined (.inl before)
      | @polled _ idle k => cases idle <;> rcases eq with eq | eq <;> cases eq
      | @resumes k _ returns =>
        cases k <;> cases returns <;> rcases eq with eq | eq <;> cases eq
      | @returns k _ returns =>
        cases k <;> cases returns <;> rcases eq with eq | eq <;> cases eq
      | _ => rcases eq with eq | eq <;> cases eq
    · rw [at'] at eq
      generalize before : x.eh.point x.eh.self = q at flow
      cases flow with
      | @leaves v r leaves => split at eq <;> cases eq
      | destroys joined ok =>
        cases eq
        rw [stored, taskRet, self, storedStep, before]
        dsimp only
        rw [joined]
        dsimp only
        rw [if_neg (not_lt.mpr ok), Function.update_self]
        rfl
      | @polled _ idle k => cases idle <;> cases eq
      | @resumes k _ returns => cases k <;> cases returns <;> cases eq
      | @returns k _ returns => cases k <;> cases returns <;> cases eq
      | _ => cases eq
  | @calls _ _ p user calls point same =>
    have at' : y.eh.point y.eh.self = p := by rw [self, point]
    refine ⟨ok, fun {w r u} joined eq => ?_, fun {u} eq => ?_⟩
    · rw [at'] at eq
      cases calls with
      | wait live entry => exact entry_results joined entry eq
      | _ => rcases eq with eq | eq <;> cases eq
    · rw [at'] at eq
      cases calls with
      | wait live entry =>
        subst eq
        cases entry
      | _ => cases eq
  | outside out point same alive =>
    obtain ⟨sameRet, sameStored, -⟩ := x.retStep_outside ret out
    have at' : y.eh.point y.eh.self = x.eh.point x.eh.self := by rw [same, point]
    refine ⟨ok, fun joined eq => h.results joined (at' ▸ eq), fun eq => ?_⟩
    rw [stored, taskRet, sameRet, sameStored, same]
    exact h.stored (at' ▸ eq)

theorem Reachable.ok {main : T} {world : W} (h : x.Reachable sys main world) : x.Ok sys := by
  obtain ⟨ks, run⟩ := h
  refine run.invariant (fun ok step => ok.step step) ⟨Wired.init_ok sys main world, ?_, ?_⟩
  · intro w ret u joined eq
    rcases eq with eq | eq <;> cases eq
  · intro u eq
    cases eq

/-! The life of one task, from a state in which it is allocated. -/

def creates (u : T) : Label T O P C A → Bool
  | .create t _ _ => t = u
  | _ => false

/-- The joins of `later` have returned since `x`. -/
structure Since (u : T) (x z : Joins T O P W C A) (later : List (Joined T)) : Prop where
  returned : z.returned = x.returned ++ later
  winners : later.countP (fun j => j.task = u ∧ j.ret = ehRetOk) =
    if z.eh.alive u then 0 else 1
  fair : ∀ j ∈ later, j.task = u → j.Fair (z.taskRet u)
  joinable : z.eh.alive u = true → (z.eh.sched.task u).isAutoDestruct = false
  final : (x.eh.point u).final = true →
    z.taskRet u = x.taskRet u ∧ (z.eh.alive u = true → (z.eh.point u).final = true)

omit [DecidableEq O] [DecidableEq P] in
theorem Since.losers {z : Joins T O P W C A} {later : List (Joined T)} (h : Since u x z later)
    (live : z.eh.alive u = true) {j : Joined T} (mem : j ∈ later) (task : j.task = u) :
    j.ret = ehRetTimeout ∨ j.ret = ehRetEventError := by
  have none := h.winners
  rw [live, if_pos rfl, List.countP_eq_zero] at none
  have lost : j.ret ≠ ehRetOk := by simpa [task] using none j mem
  exact (h.fair j mem task).resolve_left fun won => lost won.1

theorem retStep_eq (inv : Invariant sys x.eh) (step : x.step sys k = some y)
    (same : creates u k.1 = false) (calm : x.eh.alive u = false ∨ (x.eh.point u).final = true) :
    y.taskRet u = x.taskRet u := by
  obtain ⟨l, ret⟩ := k
  obtain ⟨wired, taskRet, -⟩ := step_eq step
  obtain ⟨eh, at_, -⟩ := Option.map_eq_some_iff.mp wired
  have user : l = .ret ∨ l = .exit → u ≠ x.eh.self := by
    rintro returns rfl
    rcases calm with dead | final
    · rw [inv.sched.live] at dead
      cases dead
    · cases Eh.step_cases at_ with
      | user user step =>
        rw [user] at final
        cases final
      | _ => rcases returns with eq | eq <;> cases eq
  rw [taskRet]
  cases l with
  | ret => exact Function.update_of_ne (user (.inl rfl)) _ _
  | exit => exact Function.update_of_ne (user (.inr rfl)) _ _
  | create t system auto =>
    have ne : u ≠ t := fun eq => by simp [creates, eq] at same
    exact Function.update_of_ne ne _ _
  | _ => rfl

omit [DecidableEq T] [DecidableEq O] [DecidableEq P] in
theorem Ok.returns (h : x.Ok sys) {l : Label T O P C A} {j : Joined T}
    (returns : x.returns l = some j) :
    l = .go ∧ ((∃ w, x.eh.point x.eh.self = .returned w j.ret ∧ w.joined = some j.task ∧
        (j.ret = ehRetTimeout ∨ j.ret = ehRetEventError)) ∨
      x.eh.point x.eh.self = .destroying j.task ∧ j.ret = ehRetOk ∧
        j.stored = some (x.taskRet j.task)) := by
  cases l with
  | go =>
    refine ⟨rfl, ?_⟩
    rw [Joins.returns] at returns
    split at returns
    · next w ret at_ =>
      split at returns
      · next v joined =>
        split at returns <;> cases returns
        · next negative =>
          refine .inl ⟨w, at_, joined, (h.results joined (.inr at_)).resolve_left ?_⟩
          rintro rfl
          exact absurd negative (by decide)
      · cases returns
    · next v at_ =>
      cases returns
      exact .inr ⟨at_, rfl, congrArg some (h.stored at_)⟩
    · cases returns
  | _ => cases returns

omit [DecidableEq T] [DecidableEq O] [DecidableEq P] in
theorem Ok.frees (h : x.Ok sys)
    (joinable : x.eh.alive u = true → (x.eh.sched.task u).isAutoDestruct = false)
    (cleaned : (x.eh.point x.eh.self).cleaned = some u) : x.Frees u := by
  have inv := h.wired.inv
  cases at_ : x.eh.point x.eh.self with
  | destroying v =>
    rw [at_] at cleaned
    cases cleaned
    obtain ⟨live, finish, ne⟩ := inv.join.target (u := u) (by rw [at_]; rfl)
    exact ⟨at_, live, ne, finish, inv.sched.finished live ne finish⟩
  | poll pp idle k =>
    rw [at_] at cleaned
    obtain ⟨lists, holds, pollOk⟩ := inv.sched.lists
    rw [at_] at pollOk
    cases pp with
    | unlink pos n =>
      obtain ⟨v, rest, first, rfl, -⟩ := pollOk
      cases cleaned
      obtain ⟨live, -, home⟩ := (holds.mem .autoDestruct u).mp (by simp [first])
      have auto := (home_autoDestruct.mp home).2
      rw [joinable live] at auto
      cases auto
    | _ => cases cleaned
  | _ =>
    rw [at_] at cleaned
    cases cleaned

theorem Since.step {z z' : Joins T O P W C A} {later : List (Joined T)} (h : Since u x z later)
    (ok : z.Ok sys) (step : z.step sys k = some z') (same : creates u k.1 = false) :
    Since u x z' (later ++ (z.returns k.1).toList) := by
  have inv := ok.wired.inv
  obtain ⟨wired, taskRet, -, returned⟩ := step_eq step
  obtain ⟨at_, -, -⟩ := ok.wired.step wired
  have old : ∀ system auto, k.1 ≠ .create u system auto := by
    intro system auto eq
    rw [eq] at same
    simp [creates] at same
  have stays : z'.eh.alive u = true → z.eh.alive u = true := by
    intro live'
    by_contra dead
    rw [step_dead inv at_ (by simpa using dead) old] at live'
    cases live'
  -- a value that a join has stored stays
  have kept : ∀ j ∈ later, j.task = u → j.Fair (z'.taskRet u) := by
    intro j mem task
    by_cases live : z.eh.alive u = true
    · exact .inr (h.losers live mem task)
    · rw [retStep_eq inv step same (.inl (by simpa using live))]
      exact h.fair j mem task
  have released : z.eh.alive u = true → z'.eh.alive u = false →
      z.returns k.1 = some ⟨u, ehRetOk, some (z.stored z.eh.self)⟩ := by
    intro live dead
    obtain ⟨go, cleaned⟩ := step_released inv at_ live dead
    rw [go, Joins.returns]
    simp only [(ok.frees h.joinable cleaned).join]
  refine ⟨?_, ?_, ?_, ?_, ?_⟩
  · rw [returned, h.returned, List.append_assoc]
  · rw [List.countP_append, h.winners]
    cases returns : z.returns k.1 with
    | none =>
      have alive : z'.eh.alive u = z.eh.alive u := by
        cases live : z.eh.alive u with
        | false => exact step_dead inv at_ live old
        | true =>
          by_contra dead
          rw [released live (by simpa using dead)] at returns
          cases returns
      simp [alive]
    | some j =>
      obtain ⟨go, ⟨w, point, joined, lost⟩ | ⟨point, won, stored⟩⟩ := ok.returns returns
      · have alive : z'.eh.alive = z.eh.alive := by
          rw [go] at at_
          have := go_alive inv at_
          rwa [point] at this
        have ne : j.ret ≠ ehRetOk := by rcases lost with eq | eq <;> rw [eq] <;> decide
        simp [alive, ne]
      · have alive : z'.eh.alive = Function.update z.eh.alive j.task false := by
          rw [go] at at_
          have := go_alive inv at_
          rwa [point] at this
        by_cases task : j.task = u
        · have live := (inv.join.target (u := j.task) (by rw [point]; rfl)).1
          rw [task] at live alive
          simp [alive, live, task, won]
        · simp [alive, task, Ne.symm task]
  · intro j mem task
    rcases List.mem_append.mp mem with mem | mem
    · exact kept j mem task
    · have returns : z.returns k.1 = some j := by simpa using mem
      obtain ⟨go, ⟨w, point, joined, lost⟩ | ⟨point, won, stored⟩⟩ := ok.returns returns
      · exact .inr lost
      · refine .inl ⟨won, ?_⟩
        rw [taskRet, go, stored, task]
        rfl
  · intro live'
    rw [step_isAutoDestruct inv at_ old]
    exact h.joinable (stays live')
  · intro final
    obtain ⟨ret, still⟩ := h.final final
    refine ⟨?_, fun live' => step_final inv at_ (stays live') (still (stays live'))⟩
    rw [← ret]
    refine retStep_eq inv step same ?_
    by_cases live : z.eh.alive u = true
    · exact .inr (still live)
    · exact .inl (by simpa using live)

/-! A join behind the end of its task. -/

omit [DecidableEq T] [DecidableEq O] [DecidableEq P] in
theorem dead_leaving {s : Eh T O P W C A} (inv : Invariant sys s) (dead : s.alive u = false)
    (at_ : joining (s.point s.self) = some u) :
    ∃ w, w.joined = some u ∧ s.Leaving s.self w ∧
      (s.point s.self = .waitLoop w ∨ (∃ ret, s.point s.self = .waitEnd w ret) ∨
        ∃ ret, s.point s.self = .returned w ret ∧ ret < 0) := by
  have gone : s.alive u ≠ true := by simp [dead]
  cases point : s.point s.self with
  | waitTimer w =>
    rw [point] at at_
    exact absurd (inv.join.joins (u := u) (by rw [point]; exact at_)) gone
  | waitAdd w =>
    rw [point] at at_
    exact absurd (inv.join.joins (u := u) (by rw [point]; exact at_)) gone
  | waitLoop w =>
    rw [point] at at_
    have joined : w.joined = some u := at_
    have waits : (s.point s.self).waits = some w := by rw [point]; rfl
    have event : w.event sys = some (.task u) := by
      obtain ⟨caller, timeout⟩ := w
      cases caller <;> cases joined
      rfl
    refine ⟨w, joined, .inl ⟨waits, ?_⟩, .inl rfl⟩
    have own := inv.event.task s.self
    exact (own.listed inv.sched.live waits event).resolve_left fun mem =>
      gone (inv.event.event mem)
  | waitEnd w ret =>
    rw [point] at at_
    exact ⟨w, at_, .inr (.inl ⟨ret, point⟩), .inr (.inl ⟨ret, rfl⟩)⟩
  | returned w ret =>
    rw [point] at at_
    have joined : w.joined = some u := at_
    have negative : ret < 0 := by
      by_contra ok
      refine gone (inv.join.target (u := u) ?_).1
      rw [point, Point.target, if_pos (not_lt.mp ok), joined]
    exact ⟨w, joined, .inr (.inr ⟨ret, point, fun _ _ => negative⟩), .inr (.inr ⟨ret, rfl, negative⟩)⟩
  | destroying v =>
    rw [point] at at_
    cases at_
    exact absurd (inv.join.target (u := u) (by rw [point]; rfl)).1 gone
  | _ =>
    rw [point] at at_
    cases at_

omit [DecidableEq T] [DecidableEq O] [DecidableEq P] in
theorem conditional_of_joined {w : Wait T P C} (joined : w.joined = some u) :
    w.conditional sys = true := by
  obtain ⟨caller, timeout⟩ := w
  cases caller <;> cases joined
  rfl

theorem go_overwrite {s : Eh T O P W C A} (inv : Invariant sys s) (dead : s.alive u = false)
    (at_ : joining (s.point s.self) = some u) (d : Debris T O P) :
    ∃ s', s.go sys = some s' ∧ (overwriteEh s u d).go sys = some (overwriteEh s' u d) ∧
      (overwriteEh s u d).edits sys .go = s.edits sys .go ∧ s.cleans sys .go = none := by
  obtain ⟨w, joined, leaving, point⟩ := dead_leaving inv dead at_
  have conditional : w.conditional sys = true := conditional_of_joined joined
  rcases point with point | ⟨ret, point⟩ | ⟨ret, point, negative⟩
  · have error : (s.events.flags (.wait s.self)).error = true := by
      rcases leaving with ⟨-, error⟩ | ⟨ret, eq⟩ | ⟨ret, eq, -⟩
      · exact error
      · rw [point] at eq
        cases eq
      · rw [point] at eq
        cases eq
    have check := check_error conditional error
    have check' : (overwriteEh s u d).check sys w = (some ehRetEventError, overwriteEh s u d) :=
      check_error conditional error
    have point' : (overwriteEh s u d).point (overwriteEh s u d).self = .waitLoop w := point
    refine ⟨s.leaveWait sys w ehRetEventError, ?_, ?_, ?_, ?_⟩
    · rw [Eh.go, point]
      dsimp only
      rw [Eh.loopWait, check]
    · rw [Eh.go, point']
      dsimp only
      rw [Eh.loopWait, check']
      rfl
    · rw [Eh.edits, Eh.edits, point, point', Eh.goEdits, Eh.goEdits, Eh.leaveEdits, Eh.leaveEdits,
        check, check']
      rfl
    · rw [Eh.cleans, point]
      rfl
  · have point' : (overwriteEh s u d).point (overwriteEh s u d).self = .waitEnd w ret := point
    refine ⟨s.endWait w ret, ?_, ?_, ?_, ?_⟩
    · rw [Eh.go, point]
    · rw [Eh.go, point']
      rfl
    · rw [Eh.edits, Eh.edits, point, point']
      rfl
    · rw [Eh.cleans, point]
      rfl
  · have point' : (overwriteEh s u d).point (overwriteEh s u d).self = .returned w ret := point
    obtain ⟨caller, timeout⟩ := w
    cases caller <;> cases joined
    refine ⟨s.setPoint s.self .user, ?_, ?_, ?_, ?_⟩
    · rw [Eh.go, point]
      dsimp only [Eh.afterWait]
      rw [if_pos negative]
    · rw [Eh.go, point']
      dsimp only [Eh.afterWait]
      rw [if_pos negative]
      rfl
    · rw [Eh.edits, Eh.edits, point, point', Eh.goEdits, Eh.goEdits]
      dsimp only
      rw [if_pos negative, if_pos negative]
    · rw [Eh.cleans, point, Eh.goCleans]
      dsimp only
      rw [if_pos negative]

/-- A join of a task that is gone does not read the memory of the task, and leaves it alone. -/
theorem Ok.overwrite_step (h : x.Ok sys) (dead : x.eh.alive u = false)
    (at_ : joining (x.eh.point x.eh.self) = some u) (d : Debris T O P) (ret : Int) :
    (x.overwrite u d).step sys (.go, ret) =
      (x.step sys (.go, ret)).map fun y => y.overwrite u d := by
  have inv := h.wired.inv
  obtain ⟨w, joined, leaving, point⟩ := dead_leaving inv dead at_
  obtain ⟨s', go, go', edits, own⟩ := go_overwrite inv dead at_ d
  have out : WireNode.head (.task u) ∉
      LinkEdit.touchedAll x.wired.links (x.eh.edits sys .go) := by
    intro mem
    rcases leaving.touched inv h.wired.timers h.wired.wires own _ mem with eq | eq | eq <;> cases eq
  have links := LinkEdit.applyAll_overwrite out d.headNext d.headPrev
  have calm : ∀ z : Joins T O P W C A, z.eh.point z.eh.self = x.eh.point x.eh.self →
      z.storedStep .go = z.stored := by
    intro z same
    rw [storedStep, same]
    rcases point with point | ⟨ret, point⟩ | ⟨ret, point, negative⟩
    · rw [point]
    · rw [point]
    · rw [point]
      dsimp only
      rw [joined]
      exact if_pos negative
  have stored : (x.overwrite u d).storedStep .go = x.storedStep .go :=
    (calm (x.overwrite u d) rfl).trans (calm x rfl).symm
  have wired : x.wired.step sys .go =
      some ⟨s', LinkEdit.applyAll x.wired.links (x.eh.edits sys .go)⟩ := by
    rw [Wired.step, Eh.step, go]
    rfl
  have wired' : (x.overwrite u d).wired.step sys .go = some ⟨overwriteEh s' u d,
      ((LinkEdit.applyAll x.wired.links (x.eh.edits sys .go)).setNext (.head (.task u))
        d.headNext).setPrev (.head (.task u)) d.headPrev⟩ := by
    have eh : (x.overwrite u d).wired.eh = overwriteEh x.eh u d := rfl
    rw [Wired.step, Eh.step, eh, go', edits, ← links]
    rfl
  rw [Joins.step, Joins.step, wired, wired', Option.map_some, Option.map_some, Option.map_some,
    stored]
  rfl

/-- Of the joins of a task one at most wins: it stores the value that the task has returned, and
frees the task, which has left its stack. The others return an error, and do not look at the
task again when it is gone. -/
theorem ehTaskJoin_one_winner (sys : System T O W C A) (main : T) (world : W)
    (x z : Joins T O P W C A) (ks : List (Label T O P C A × Int)) (u : T)
    (reachable : x.Reachable sys main world) (live : x.eh.alive u = true)
    (joinable : (x.eh.sched.task u).isAutoDestruct = false)
    (run : Run (fun a k b => a.step sys k = some b ∧ creates u k.1 = false) x ks z) :
    (∃ later, z.returned = x.returned ++ later ∧
      later.countP (fun j => j.task = u ∧ j.ret = ehRetOk) = (if z.eh.alive u then 0 else 1) ∧
      ∀ j ∈ later, j.task = u → j.Fair (z.taskRet u)) ∧
    (x.eh.sched.state u = .finish → z.taskRet u = x.taskRet u) ∧
    ((z.eh.point z.eh.self).cleaned = some u → z.Frees u) ∧
    (∀ k y, z.step sys k = some y → z.eh.alive u = true → y.eh.alive u = false →
      k.1 = .go ∧ z.Frees u) ∧
    (z.eh.alive u = false → joining (z.eh.point z.eh.self) = some u → ∀ d ret,
      (z.overwrite u d).step sys (.go, ret) =
        (z.step sys (.go, ret)).map fun y => y.overwrite u d) := by
  obtain ⟨ok, later, since⟩ : z.Ok sys ∧ ∃ later, Since u x z later := by
    refine run.invariant (I := fun z => z.Ok sys ∧ ∃ later, Since u x z later) ?_
      ⟨reachable.ok, [], ?_⟩
    · rintro a k b ⟨ok, later, since⟩ ⟨step, same⟩
      exact ⟨ok.step step, _, since.step ok step same⟩
    · exact ⟨by simp, by simp [live], by simp, fun _ => joinable, fun final => ⟨rfl, fun _ => final⟩⟩
  refine ⟨⟨later, since.returned, since.winners, since.fair⟩, fun finish => ?_,
    ok.frees since.joinable, fun k y step alive dead => ?_, fun dead at_ => ok.overwrite_step dead at_⟩
  · exact (since.final ((final_iff reachable.ok.wired.inv live).mpr finish)).1
  · obtain ⟨wired, -⟩ := step_eq step
    obtain ⟨go, cleaned⟩ := step_released ok.wired.inv (ok.wired.step wired).1 alive dead
    exact ⟨go, ok.frees since.joinable cleaned⟩

def createdTwo : List (Label Nat Unit Unit Unit Empty × Int) :=
  [(.create 1 false false, 0), (.create 2 false false, 0)]

/-- The main task and task 2 join task 1, which yields in between and then returns 7. -/
def twoJoin : List (Label Nat Unit Unit Unit Empty × Int) :=
  [(callThen (.wait ⟨.join 1, ehTimeForever⟩) 6).map (·, 0), (callThen .yield 4).map (·, 0),
    (callThen (.wait ⟨.join 1, ehTimeForever⟩) 6).map (·, 0), (callThen .ret 7).map (·, 7),
    (callThen .yield 5).map (·, 0)].flatten

theorem createdTwo_runs :
    (createdTwo.foldlM (fun x k => step plain x k)
      (init 0 () : Joins Nat Unit Unit Unit Unit Empty)).isSome = true := rfl

def afterTwo : Joins Nat Unit Unit Unit Unit Empty :=
  (createdTwo.foldlM (fun x k => step plain x k) (init 0 ())).get createdTwo_runs

theorem twoJoin_runs : (twoJoin.foldlM (fun x k => step plain x k) afterTwo).isSome = true := by
  decide +kernel

theorem twoJoin_ends :
    let z := (twoJoin.foldlM (fun x k => step plain x k) afterTwo).get twoJoin_runs
    z.returned = [⟨1, ehRetOk, some 7⟩, ⟨1, ehRetEventError, none⟩] ∧ z.taskRet 1 = 7 ∧
      z.eh.alive 1 = false := by
  decide +kernel

theorem ehTaskJoin_one_winner_seven : ∃ z : Joins Nat Unit Unit Unit Unit Empty,
    z.returned = [⟨1, ehRetOk, some 7⟩, ⟨1, ehRetEventError, none⟩] ∧ z.taskRet 1 = 7 ∧
      ∃ later, z.returned = afterTwo.returned ++ later ∧
        later.countP (fun j => j.task = 1 ∧ j.ret = ehRetOk) = 1 := by
  have reachable : afterTwo.Reachable plain 0 () :=
    ⟨createdTwo, .of_foldlM_some (Option.some_get createdTwo_runs).symm⟩
  have run := (Run.of_foldlM_some (Option.some_get twoJoin_runs).symm).restrict
    (show ∀ k ∈ twoJoin, creates 1 k.1 = false by decide)
  have wins := ehTaskJoin_one_winner plain 0 () afterTwo _ twoJoin 1 reachable rfl rfl
    (run.imp fun step => ⟨step.2, step.1⟩)
  obtain ⟨⟨later, returned, winners, -⟩, -⟩ := wins
  obtain ⟨both, seven, freed⟩ := twoJoin_ends
  rw [freed] at winners
  exact ⟨_, both, seven, later, returned, winners⟩

end Joins

end EventHub.Core
