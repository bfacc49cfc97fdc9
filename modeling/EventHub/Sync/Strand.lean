import EventHub.Sync.Handover
import EventHub.Sync.Mutex
import EventHub.Sync.Sem

/-! A post and an unlock wake one waiter. No other waiter is left asleep beside a token that
nobody takes. -/

namespace EventHub.Sync
open Library Event Kernel

variable {T O P W C A : Type}

section Receptors
variable {sys : System T O W C A} {s : Eh T O P W C A} {o : O}

/-- The receptor is that of a wait whose task is not in `EH_TASK_STATE_WAIT`. -/
def notWaiting (s : Eh T O P W C A) : Receptor (EhEvent T O) T P → Bool
  | .wait t => s.sched.state t ≠ .wait
  | .timer _ | .epoll _ _ => false

theorem notWaiting_of_awake (h : EventOk sys s) {r : Receptor (EhEvent T O) T P}
    (mem : r ∈ s.events.receptors (.object o)) (waits : ∃ t, r = .wait t)
    (awake : Awake s.view.sleeping r) : notWaiting s r = true := by
  obtain ⟨t, rfl⟩ := waits
  obtain ⟨live, w, at_, event⟩ := (h.task t).wait mem
  have none := awake t rfl
  obtain ⟨caller, timeout⟩ := w
  cases caller with
  | object c =>
    have on : (s.point t).waitsOn = some c := by rw [Point.waitsOn, at_]
    simpa [Eh.view, live, on, notWaiting] using none
  | join u => cases event
  | epoll p m => cases event

theorem awake_count (h : EventOk sys s) {n : Nat} (only : OnlyWaits o s.view)
    (last : LastAwake o n s.view) :
    min n (s.events.receptors (.object o)).length ≤
      ((s.events.receptors (.object o)).filter (notWaiting s)).length :=
  LastAll.le_length_filter last (notWaiting s) fun r mem awake =>
    notWaiting_of_awake h mem (only.waits r mem) awake

end Receptors

variable [DecidableEq O]

/-- Whether the running task has left its wait on the object with success and has not yet taken
what it waited for. -/
def granted (o : O) : Phase O A → Nat
  | .verdict c ret => if c = o ∧ 0 ≤ ret then 1 else 0
  | .idle | .acting _ => 0

variable [DecidableEq T] [DecidableEq P]

def Waited (sys : System T O W C A) (o : O) (s : Eh T O P W C A) (l : Label T O P C A)
    (s' : Eh T O P W C A) : Prop :=
  (∀ p, l ≠ .epollAdd p (.object o)) ∧ s.step sys l = some s'

/-- In a run without such an epoll, `n` waiters are awake behind every step if the steps of the
abstract machine keep it so. -/
theorem awake_of_run {sys : System T O W C A} {o : O} {main : T} {world : W}
    {ls : List (Label T O P C A)} {s : Eh T O P W C A} {J : View T O P W C A → Prop}
    {n : W → Phase C A → Nat} (run : Run (Waited sys o) (Eh.init main world) ls s)
    (kept : ∀ {v v' i}, OnlyWaits o v → J v → LastAwake o (n v.world v.phase) v →
      View.Step sys v i v' → J v' ∧ LastAwake o (n v'.world v'.phase) v')
    (watch : ∀ {v p x}, J v → J (v.watch p x)) (start : J (View.init main world)) :
    min (n s.world s.view.phase) (s.events.receptors (.object o)).length ≤
      ((s.events.receptors (.object o)).filter (notWaiting s)).length := by
  have inv : Invariant sys s :=
    run.invariant (fun inv step => inv.step step.2) (.init sys main world)
  have safe : OnlyWaits o s.view ∧ J s.view ∧ LastAwake o (n s.view.world s.view.phase) s.view := by
    refine Eh.view_of_run (J := fun v => OnlyWaits o v ∧ J v ∧
      LastAwake o (n v.world v.phase) v) run (fun step => step.2) ?_ ?_ ?_
    · intro s l t i _ ok step _
      exact ⟨ok.1.step step, kept ok.1 ok.2.1 ok.2.2 step⟩
    · intro s t p x step ok
      have ne : o ≠ x := fun eq => step.1 p (eq ▸ rfl)
      have queue : (s.view.watch p x).queue o = s.view.queue o := Function.update_of_ne ne _ _
      refine ⟨ok.1.watch ne, watch ok.2.1, ?_⟩
      exact ok.2.2.mono queue rfl le_rfl
    · exact ⟨⟨fun r mem => (nomatch mem), fun mem => (nomatch mem)⟩, start, LastAll.nil _ _⟩
  exact awake_count inv.event safe.1 safe.2.2

section Sem

def spareTokens (o : O) (w : Sems O) (phase : Phase O O) : Nat :=
  (w.sem o).tokens - granted o phase

omit [DecidableEq T] in
theorem tokens_post (n : Nat) (w : Sems O) (a : O) (t : T) (o : O) :
    (((semSystem T O n).act a t w).world.sem o).tokens ≤
      (w.sem o).tokens + handed ((semSystem T O n).act a t w).signal o := by
  simp only [semSystem, Sems.post]
  rcases (w.sem a).ehSemPost_cases with busy | ⟨ok, more⟩
  · by_cases eq : o = a
    · subst eq
      simp [busy]
    · simp [eq]
  · rw [if_pos ok]
    by_cases eq : o = a
    · subst eq
      simp [more, handed]
    · simp [eq]

theorem tokens_wait {w : Sems O} {c o : O} {ret : Int}
    (pos : c = o → 0 ≤ ret → 0 < (w.sem c).tokens) :
    ((w.wait c ret).sem o).tokens + granted o (Phase.verdict (A := O) c ret) =
      (w.sem o).tokens := by
  by_cases eq : c = o
  · subst eq
    by_cases fine : 0 ≤ ret
    · have taken := EhSem.tokens_take (pos rfl fine)
      simpa [Sems.wait, EhSem.ehSemWait_ok fine, granted, fine] using taken
    · simp [Sems.wait, EhSem.ehSemWait_error (Int.not_le.mp fine), granted, fine]
  · simp [Sems.wait, granted, eq, Ne.symm eq]

theorem lastAwake_sem {n : Nat} {value : O → BitVec 32} {o : O} {i : Option O}
    {v v' : View T O P (Sems O) O O} (only : OnlyWaits o v) (ok : SemOk value v)
    (last : LastAwake o (spareTokens o v.world v.phase) v)
    (step : View.Step (semSystem T O n) v i v') :
    LastAwake o (spareTokens o v'.world v'.phase) v' := by
  have dry : ∀ {c}, (v.world.sem c).condition = false → c = o → (v.world.sem o).tokens = 0 := by
    rintro c false rfl
    by_contra pos
    rw [(EhSem.condition_iff _).mpr (Nat.pos_of_ne_zero pos)] at false
    cases false
  have idle : v.phase = .idle → granted o v.phase = 0 := fun eq => by rw [eq]; rfl
  cases step with
  | switch => exact last.mono rfl rfl le_rfl
  | test running tested =>
    obtain ⟨-, rfl⟩ := semSystem_tested.mp tested
    exact last
  | join running => exact last.join running.awake _
  | @met c world running tested =>
    obtain ⟨-, rfl⟩ := semSystem_tested.mp tested
    refine last.leave (c := c) rfl rfl (fun eq => ?_) ?_
    · have taken : granted o (Phase.verdict (A := O) c ehRetOk) = 1 := if_pos ⟨eq, by decide⟩
      simp [spareTokens, idle running.idle, taken]
    · simp [spareTokens, idle running.idle]
  | triggered running plain => cases plain
  | @refused c world ret running tested =>
    obtain ⟨false, rfl⟩ := semSystem_tested.mp tested
    refine last.leave (c := c) rfl rfl (fun eq => ?_) ?_
    · simp [spareTokens, dry false eq]
    · simp [spareTokens, idle running.idle]
  | failed running =>
    refine last.mono rfl rfl ?_
    simp [spareTokens, idle running.idle]
  | @park c world running tested linked =>
    obtain ⟨false, rfl⟩ := semSystem_tested.mp tested
    refine last.park only linked rfl rfl (fun eq => ?_) le_rfl
    simp [spareTokens, dry false eq]
  | @finish c ret phase =>
    refine last.mono rfl rfl ?_
    have taken : ((v.world.wait c ret).sem o).tokens + granted o (Phase.verdict (A := O) c ret) =
        (v.world.sem o).tokens := tokens_wait fun _ fine => ok.granted phase fine
    have after : granted o (Phase.idle (C := O) (A := O)) = 0 := rfl
    rw [spareTokens, spareTokens, phase, after]
    have same : (((semSystem T O n).finish c v.self ret v.world).sem o) =
      ((v.world.wait c ret).sem o) := rfl
    rw [same]
    omega
  | @act a sleeping from_ woken =>
    refine last.signal woken rfl rfl ?_
    have more := tokens_post (T := T) n v.world a v.self o
    rw [spareTokens, spareTokens]
    have before : granted o v.phase = 0 := by
      rcases from_ with ⟨eq, -⟩ | eq <;> rw [eq] <;> rfl
    dsimp only
    omega
  | @interrupt a calls sleeping from_ woken =>
    refine last.signal woken rfl rfl ?_
    have more := tokens_post (T := T) n v.world a v.self o
    rw [spareTokens, spareTokens]
    dsimp only
    omega
  | signal woken => exact last.signal woken rfl rfl (Nat.le_add_right _ _)
  | unwatch => exact last.mono (only.unwatch _ _) rfl le_rfl

end Sem

section Mutex

/-- Whether the running task has counted down to zero in `eh_mutex_unlock` and has not yet
notified. -/
def notifying (o : O) : Phase O (MutexCall O) → Nat
  | .acting (.unlockNotify x) => if x = o then 1 else 0
  | _ => 0

theorem notifying_eq_zero {o : O} {phase : Phase O (MutexCall O)}
    (quiet : phase ≠ .acting (.unlockNotify o)) : notifying o phase = 0 := by
  cases phase with
  | acting a =>
    cases a with
    | unlock x => rfl
    | unlockNotify x =>
      apply if_neg
      rintro rfl
      exact quiet rfl
  | _ => rfl

def freeLocks (w : Mutexes T O) (o : O) : Nat := if (w.mutex o).lockCnt = 0 then 1 else 0

def spareLocks (o : O) (w : Mutexes T O) (phase : Phase O (MutexCall O)) : Nat :=
  freeLocks w o - (granted o phase + notifying o phase)

variable {n : Nat} {w : Mutexes T O} {o c x : O} {t : T}

omit [DecidableEq O] in
theorem freeLocks_eq_zero (false : (w.mutex o).condition t = false) : freeLocks w o = 0 := by
  apply if_neg
  intro free
  rw [EhMutex.condition_iff.mpr (.inl free)] at false
  cases false

theorem freeLocks_lock {ret : Int} :
    freeLocks (w.lock c t ret) o ≤
      freeLocks w o - granted o (Phase.verdict (A := MutexCall O) c ret) := by
  by_cases eq : c = o
  · subst eq
    rcases (w.mutex c).ehMutexLock_cases t ret with ⟨why, -, same⟩ | ⟨fine, below, locked⟩
    · have kept : freeLocks (w.lock c t ret) c = freeLocks w c := by
        simp [freeLocks, Mutexes.lock, same]
      rw [kept]
      rcases why with error | full
      · have none : granted c (Phase.verdict (A := MutexCall O) c ret) = 0 :=
          if_neg fun both => absurd both.2 (Int.not_le.mpr error)
        rw [none]
        exact le_rfl
      · have locked : freeLocks w c = 0 := by
          apply if_neg
          rw [full]
          decide
        rw [locked]
        exact Nat.zero_le _
    · have locked' : freeLocks (w.lock c t ret) c = 0 := by
        have more := EhMutex.toNat_add_one below
        apply if_neg
        simp only [Mutexes.lock, locked, Function.update_self]
        intro zero
        rw [zero] at more
        simp at more
      rw [locked']
      exact Nat.zero_le _
  · simp [freeLocks, Mutexes.lock, granted, eq, Ne.symm eq]

/-- An unlock that leaves the mutex free is about to notify. -/
theorem freeLocks_unlock : freeLocks (w.unlock x t) o ≤ freeLocks w o +
    notifying o (View.resting ((mutexSystem T O n).act (.unlock x) t w).rest) := by
  by_cases eq : o = x
  · subst eq
    rcases (w.mutex o).ehMutexUnlock_cases t with ⟨-, -, same⟩ | ⟨locked, owner, done⟩
    · have kept : freeLocks (w.unlock o t) o = freeLocks w o := by
        simp [freeLocks, Mutexes.unlock, same]
      rw [kept]
      exact Nat.le_add_right _ _
    · by_cases zero : (w.mutex o).lockCnt - 1 = 0
      · have notify : notifying o
            (View.resting ((mutexSystem T O n).act (.unlock o) t w).rest) = 1 := by
          have rest : ((mutexSystem T O n).act (.unlock o) t w).rest = some (.unlockNotify o) := by
            simp only [mutexSystem, done]
            rw [if_pos zero, if_pos rfl]
          rw [rest]
          exact if_pos rfl
        rw [notify, freeLocks]
        split <;> omega
      · have still : freeLocks (w.unlock o t) o = 0 := by
          apply if_neg
          simp only [Mutexes.unlock, done, Function.update_self]
          exact zero
        rw [still]
        exact Nat.zero_le _
  · have kept : freeLocks (w.unlock x t) o = freeLocks w o := by
      simp [freeLocks, Mutexes.unlock, eq]
    rw [kept]
    exact Nat.le_add_right _ _

theorem lastAwake_mutex {type : O → EhMutexType} {i : Option O}
    {v v' : View T O P (Mutexes T O) O (MutexCall O)} (only : OnlyWaits o v)
    (ok : MutexOk type v) (last : LastAwake o (spareLocks o v.world v.phase) v)
    (step : View.Step (mutexSystem T O n) v i v') :
    LastAwake o (spareLocks o v'.world v'.phase) v' := by
  have idle : v.phase = .idle → granted o v.phase + notifying o v.phase = 0 := fun eq => by
    rw [eq]
    rfl
  cases step with
  | switch => exact last.mono rfl rfl le_rfl
  | test running tested =>
    obtain ⟨-, rfl⟩ := mutexSystem_tested.mp tested
    exact last
  | join running => exact last.join running.awake _
  | @met c world running tested =>
    obtain ⟨-, rfl⟩ := mutexSystem_tested.mp tested
    refine last.leave (c := c) rfl rfl (fun eq => ?_) ?_
    · have taken : granted o (Phase.verdict (A := MutexCall O) c ehRetOk) = 1 :=
        if_pos ⟨eq, by decide⟩
      simp only [spareLocks, idle running.idle, taken]
      omega
    · simp only [spareLocks, idle running.idle]
      omega
  | triggered running plain => cases plain
  | @refused c world ret running tested =>
    obtain ⟨false, rfl⟩ := mutexSystem_tested.mp tested
    refine last.leave (c := c) rfl rfl (fun eq => ?_) ?_
    · subst eq
      have none : freeLocks v.world c = 0 := freeLocks_eq_zero false
      change freeLocks v.world c - _ ≤ _
      omega
    · simp only [spareLocks, idle running.idle]
      omega
  | failed running =>
    refine last.mono rfl rfl ?_
    simp only [spareLocks, idle running.idle]
    omega
  | @park c world running tested linked =>
    obtain ⟨false, rfl⟩ := mutexSystem_tested.mp tested
    refine last.park only linked rfl rfl (fun eq => ?_) le_rfl
    subst eq
    have none : freeLocks v.world c = 0 := freeLocks_eq_zero false
    change freeLocks v.world c - _ = 0
    omega
  | @finish c ret phase =>
    refine last.mono rfl rfl ?_
    have less : freeLocks (v.world.lock c v.self ret) o ≤ _ := freeLocks_lock
    rw [spareLocks, spareLocks, phase]
    change freeLocks (v.world.lock c v.self ret) o - _ ≤
      _ - (_ + notifying o (Phase.verdict (A := MutexCall O) c ret))
    have none : notifying o (Phase.verdict c ret) = 0 := rfl
    omega
  | @act a sleeping from_ woken =>
    cases a with
    | unlock x =>
      refine last.signal woken rfl rfl ?_
      have before : granted o v.phase + notifying o v.phase = 0 := by
        rcases from_ with ⟨eq, -⟩ | eq <;> rw [eq] <;> rfl
      have less := freeLocks_unlock (n := n) (w := v.world) (o := o) (x := x) (t := v.self)
      rw [spareLocks, spareLocks, before]
      change freeLocks (v.world.unlock x v.self) o -
        (_ + notifying o (View.resting ((mutexSystem T O n).act (.unlock x) v.self v.world).rest)) ≤ _
      omega
    | unlockNotify x =>
      refine last.signal woken rfl rfl ?_
      have at_ : v.phase = .acting (.unlockNotify x) := by
        rcases from_ with ⟨-, allowed⟩ | eq
        · cases allowed
        · exact eq
      rw [spareLocks, spareLocks, at_]
      simp only [mutexSystem, View.resting, granted, notifying, handed]
      by_cases eq : x = o
      · rw [if_pos eq, if_pos eq]
        omega
      · rw [if_neg eq, if_neg eq]
        omega
  | @interrupt a calls sleeping from_ woken =>
    rcases from_ with ⟨allowed, -⟩ | ⟨j, at_, -⟩
    · cases allowed
    · rw [ok.calls] at at_
      cases at_
  | signal woken => exact last.signal woken rfl rfl (Nat.le_add_right _ _)
  | unwatch => exact last.mono (only.unwatch _ _) rfl le_rfl

end Mutex

/-- As long as only waits are linked, waking one waiter strands nobody. Beside the token that the
running task is about to count, as many waiters are awake as there are tokens; and one waiter of a
free mutex is awake, unless the running task is about to lock it or to notify. -/
theorem ehEventNotifyAndReorder_strands_nobody (n : Nat) (main : T) (o : O) :
    (∀ (value : O → BitVec 32) ls (s : Eh T O P (Sems O) O O),
      Run (Waited (semSystem T O n) o) (Eh.init main (Sems.create value)) ls s →
      min ((s.world.sem o).tokens - granted o s.view.phase)
          (s.events.receptors (.object o)).length ≤
        ((s.events.receptors (.object o)).filter (notWaiting s)).length) ∧
    (∀ type lockTask ls (s : Eh T O P (Mutexes T O) O (MutexCall O)),
      Run (Waited (mutexSystem T O n) o) (Eh.init main (Mutexes.create type lockTask)) ls s →
      (s.world.mutex o).lockCnt = 0 → granted o s.view.phase = 0 →
      s.view.phase ≠ .acting (.unlockNotify o) →
      min 1 (s.events.receptors (.object o)).length ≤
        ((s.events.receptors (.object o)).filter (notWaiting s)).length) := by
  constructor
  · intro value ls s run
    refine awake_of_run (J := SemOk value) (n := spareTokens o) run ?_ ?_ ?_
    · intro v v' i only ok last step
      exact ⟨ok.step step, lastAwake_sem only ok last step⟩
    · exact fun ok => ⟨ok.conserved, ok.granted⟩
    · exact ⟨fun _ => Sems.conserved_create, fun eq => (nomatch eq)⟩
  · intro type lockTask ls s run free out quiet
    have awake := awake_of_run (J := MutexOk type) (n := spareLocks o) run (fun only ok last step =>
      ⟨ok.step step, lastAwake_mutex only ok last step⟩) (fun ok => ⟨ok.ok, ok.granted, ok.calls⟩)
      ⟨fun _ => Mutexes.ok_create lockTask, fun eq => (nomatch eq), rfl⟩
    have one : spareLocks o s.world s.view.phase = 1 := by
      rw [spareLocks, out, notifying_eq_zero quiet, freeLocks, if_pos free]
    rw [one] at awake
    exact awake

def twoWait : List (Label Nat Unit Unit Unit Unit) :=
  [Label.thenGo (.create 1 false false) 0, Label.thenGo (.create 2 false false) 0,
    Label.thenGo .yield 4, Label.thenGo (.wait ⟨.object (), ehTimeForever⟩) 6,
    Label.thenGo (.wait ⟨.object (), ehTimeForever⟩) 6].flatten

def twoPosts : List (Label Nat Unit Unit Unit Unit) := twoWait ++ [.act (), .act ()]

theorem twoPosts_runs :
    (Eh.runs (semSystem Nat Unit 4) 0 (Sems.create fun _ => 0) twoPosts).isSome = true := by
  decide +kernel

theorem twoPosts_plain : ∀ l ∈ twoPosts, ∀ p, l ≠ .epollAdd p (.object ()) := by
  simp [twoPosts, twoWait, Label.thenGo]

theorem twoPosts_spare :
    let s := (Eh.runs (semSystem Nat Unit 4) 0 (Sems.create fun _ => 0) twoPosts).get twoPosts_runs
    min ((s.world.sem ()).tokens - granted () s.view.phase)
      (s.events.receptors (.object ())).length = 2 := by
  decide +kernel

theorem ehEventNotifyAndReorder_strands_nobody_two :
    ∃ s : Eh Nat Unit Unit (Sems Unit) Unit Unit,
      2 ≤ ((s.events.receptors (.object ())).filter (notWaiting s)).length := by
  have run := (Run.of_foldlM_some (Option.some_get twoPosts_runs).symm).restrict twoPosts_plain
  have safe := (ehEventNotifyAndReorder_strands_nobody 4 0 ()).1 (fun _ => 0) _ _ run
  exact ⟨_, twoPosts_spare ▸ safe⟩

def oneLeaves : List (Label Nat Unit Unit Unit Unit) :=
  twoWait ++ [Label.thenGo (.act ()) 0, Label.thenGo .yield 4].flatten

theorem oneLeaves_runs :
    (Eh.runs (semSystem Nat Unit 4) 0 (Sems.create fun _ => 0) oneLeaves).isSome = true := by
  decide +kernel

theorem oneLeaves_plain : ∀ l ∈ oneLeaves, ∀ p, l ≠ .epollAdd p (.object ()) := by
  simp [oneLeaves, twoWait, Label.thenGo]

theorem oneLeaves_asleep :
    let s := (Eh.runs (semSystem Nat Unit 4) 0 (Sems.create fun _ => 0) oneLeaves).get
      oneLeaves_runs
    ¬ min (s.world.sem ()).tokens (s.events.receptors (.object ())).length ≤
      ((s.events.receptors (.object ())).filter (notWaiting s)).length := by
  decide +kernel

/-- Main locks, task 1 waits, and main has counted down but has not yet notified. -/
def unlocking : List (Label Nat Unit Unit Unit (MutexCall Unit)) :=
  [Label.thenGo (.wait ⟨.object (), ehTimeForever⟩) 1, Label.thenGo (.create 1 false false) 0,
    Label.thenGo .yield 4, Label.thenGo (.wait ⟨.object (), ehTimeForever⟩) 6,
    Label.thenGo (.act (.unlock ())) 0].flatten

theorem unlocking_runs : (Eh.runs (mutexSystem Nat Unit 4) 0
    (Mutexes.create (fun _ => .normal) fun _ => none) unlocking).isSome = true := by
  decide +kernel

theorem unlocking_plain : ∀ l ∈ unlocking, ∀ p, l ≠ .epollAdd p (.object ()) := by
  simp [unlocking, Label.thenGo]

theorem unlocking_asleep :
    let s := (Eh.runs (mutexSystem Nat Unit 4) 0
      (Mutexes.create (fun _ => .normal) fun _ => none) unlocking).get unlocking_runs
    (s.world.mutex ()).lockCnt = 0 ∧
      ¬ min 1 (s.events.receptors (.object ())).length ≤
        ((s.events.receptors (.object ())).filter (notWaiting s)).length := by
  decide +kernel

/-- Until task 1 has counted its token, there is one for which nobody in the queue is awake, and
until main has notified there is a free mutex for which nobody is. -/
theorem ehEventNotifyAndReorder_token_left :
    (¬ ∀ (ls : List (Label Nat Unit Unit Unit Unit))
        (s : Eh Nat Unit Unit (Sems Unit) Unit Unit),
      Run (Waited (semSystem Nat Unit 4) ()) (Eh.init 0 (Sems.create fun _ => 0)) ls s →
      min (s.world.sem ()).tokens (s.events.receptors (.object ())).length ≤
        ((s.events.receptors (.object ())).filter (notWaiting s)).length) ∧
    ¬ ∀ (ls : List (Label Nat Unit Unit Unit (MutexCall Unit)))
        (s : Eh Nat Unit Unit (Mutexes Nat Unit) Unit (MutexCall Unit)),
      Run (Waited (mutexSystem Nat Unit 4) ())
        (Eh.init 0 (Mutexes.create (fun _ => .normal) fun _ => none)) ls s →
      (s.world.mutex ()).lockCnt = 0 →
      min 1 (s.events.receptors (.object ())).length ≤
        ((s.events.receptors (.object ())).filter (notWaiting s)).length := by
  constructor
  · intro claim
    have run := (Run.of_foldlM_some (Option.some_get oneLeaves_runs).symm).restrict oneLeaves_plain
    exact oneLeaves_asleep (claim _ _ run)
  · intro claim
    have run := (Run.of_foldlM_some (Option.some_get unlocking_runs).symm).restrict unlocking_plain
    exact unlocking_asleep.2 (claim _ _ run unlocking_asleep.1)

end EventHub.Sync
