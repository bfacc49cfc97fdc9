import EventHub.Kernel.Simulation

/-! Mutexes. The wait is for the condition only; the lock is taken when it has returned. -/

namespace EventHub.Sync
open Library Event Kernel

inductive EhMutexType where
  | normal
  | recursive
deriving DecidableEq

/-- `lock_task` is what it was while nobody has locked, and at first what the memory held. -/
structure EhMutex (T : Type) where
  lockCnt : BitVec 32
  type : EhMutexType
  lockTask : Option T

def ehMutexLockCntMax : BitVec 32 := 0xFFFFFFFF

namespace EhMutex
variable {T : Type} [DecidableEq T]

def condition (mutex : EhMutex T) (t : T) : Bool :=
  mutex.lockCnt == 0 || mutex.type == .recursive && mutex.lockTask == some t

/-- `eh_mutex_lock` behind the wait. -/
def ehMutexLock (mutex : EhMutex T) (t : T) (ret : Int) : Int × EhMutex T :=
  if ret < 0 then (ret, mutex)
  else if mutex.lockCnt = ehMutexLockCntMax then (ehRetInvalidState, mutex)
  else (ehRetOk, { mutex with lockTask := some t, lockCnt := mutex.lockCnt + 1 })

/-- `eh_mutex_unlock` up to the notification: what it returns without one. -/
def ehMutexUnlock (mutex : EhMutex T) (t : T) : Option Int × EhMutex T :=
  if mutex.lockCnt = 0 then (some ehRetOk, mutex)
  else if mutex.lockTask ≠ some t then (some ehRetInvalidState, mutex)
  else
    let cnt := mutex.lockCnt - 1
    (if cnt = 0 then none else some ehRetOk, { mutex with lockCnt := cnt })

variable {mutex : EhMutex T} {t : T} {ret : Int}

theorem condition_iff : mutex.condition t = true ↔
    mutex.lockCnt = 0 ∨ mutex.type = .recursive ∧ mutex.lockTask = some t := by
  simp [condition]

omit [DecidableEq T] in
theorem ehMutexLock_cases (mutex : EhMutex T) (t : T) (ret : Int) :
    (ret < 0 ∨ mutex.lockCnt = ehMutexLockCntMax) ∧
        (mutex.ehMutexLock t ret).1 ≠ ehRetOk ∧ (mutex.ehMutexLock t ret).2 = mutex ∨
      0 ≤ ret ∧ mutex.lockCnt ≠ ehMutexLockCntMax ∧ mutex.ehMutexLock t ret =
        (ehRetOk, { mutex with lockTask := some t, lockCnt := mutex.lockCnt + 1 }) := by
  rw [ehMutexLock]
  split
  · next error =>
    left
    refine ⟨.inl error, ?_, rfl⟩
    rintro rfl
    exact absurd error (by decide)
  · next fine =>
    split
    · next full =>
      left
      refine ⟨.inr full, fun eq => ?_, rfl⟩
      cases eq
    · next below => exact .inr ⟨Int.not_lt.mp fine, below, rfl⟩

theorem ehMutexUnlock_cases (mutex : EhMutex T) (t : T) :
    (mutex.lockCnt = 0 ∨ mutex.lockTask ≠ some t) ∧
        (mutex.ehMutexUnlock t).1.isSome = true ∧ (mutex.ehMutexUnlock t).2 = mutex ∨
      mutex.lockCnt ≠ 0 ∧ mutex.lockTask = some t ∧ mutex.ehMutexUnlock t =
        (if mutex.lockCnt - 1 = 0 then none else some ehRetOk,
          { mutex with lockCnt := mutex.lockCnt - 1 }) := by
  rw [ehMutexUnlock]
  split
  · next free => exact .inl ⟨.inl free, rfl, rfl⟩
  · next locked =>
    split
    · next other => exact .inl ⟨.inr other, rfl, rfl⟩
    · next own => exact .inr ⟨locked, not_not.mp own, rfl⟩

theorem toNat_add_one {cnt : BitVec 32} (below : cnt ≠ ehMutexLockCntMax) :
    (cnt + 1).toNat = cnt.toNat + 1 := by
  rw [ehMutexLockCntMax] at below
  bv_omega

theorem toNat_sub_one {cnt : BitVec 32} (locked : cnt ≠ 0) :
    (cnt - 1).toNat + 1 = cnt.toNat := by
  bv_omega

end EhMutex

/-- The mutexes of a program, the values that the locks have returned to each task, and how often
it has called unlock with more successful locks than such calls. -/
structure Mutexes (T O : Type) where
  mutex : O → EhMutex T
  locks : O → T → List Int
  unlocks : O → T → Nat

inductive MutexCall (O : Type) where
  | unlock (o : O)
  | unlockNotify (o : O)

variable {T O P : Type}

namespace Mutexes

/-- `eh_mutex_create` for all of them. -/
def create (type : O → EhMutexType) (lockTask : O → Option T) : Mutexes T O :=
  ⟨fun o => ⟨0, type o, lockTask o⟩, fun _ _ => [], fun _ _ => 0⟩

def excess [DecidableEq T] (w : Mutexes T O) (o : O) (t : T) : Int :=
  (w.locks o t).count ehRetOk - w.unlocks o t

variable [DecidableEq T] [DecidableEq O]

def lock (w : Mutexes T O) (o : O) (t : T) (ret : Int) : Mutexes T O :=
  let done := (w.mutex o).ehMutexLock t ret
  { w with
    mutex := Function.update w.mutex o done.2
    locks := Function.update w.locks o
      (Function.update (w.locks o) t (w.locks o t ++ [done.1])) }

def unlock (w : Mutexes T O) (o : O) (t : T) : Mutexes T O :=
  { w with
    mutex := Function.update w.mutex o ((w.mutex o).ehMutexUnlock t).2
    unlocks :=
      if 0 < w.excess o t then
        Function.update w.unlocks o (Function.update (w.unlocks o) t (w.unlocks o t + 1))
      else w.unlocks }

end Mutexes

variable [DecidableEq T] [DecidableEq O]

def mutexSystem (T O : Type) [DecidableEq T] [DecidableEq O] (dispatchCntPerPoll : Nat) :
    System T O (Mutexes T O) O (MutexCall O) where
  dispatchCntPerPoll := dispatchCntPerPoll
  event o := o
  condition o := some fun t w => ((w.mutex o).condition t, w)
  finish o t ret w := w.lock o t ret
  act
    | .unlock o, t, w =>
      { world := w.unlock o t
        signal := none
        rest := if ((w.mutex o).ehMutexUnlock t).1 = none then some (.unlockNotify o) else none }
    | .unlockNotify o, _, w =>
      { world := w, signal := some (.notifyAndReorder o 1), rest := none }
  fromTask
    | .unlock _ => true
    | .unlockNotify _ => false
  fromInterrupt _ := false

theorem mutexSystem_tested {n : Nat} {o : O} {t : T} {w w' : Mutexes T O} {met : Bool} :
    (mutexSystem T O n).Tested o t w met w' ↔ (w.mutex o).condition t = met ∧ w' = w := by
  simp [System.Tested, mutexSystem, eq_comm]

namespace Mutexes

/-- The owner's excess is the count, everybody else has none. -/
structure Ok (type : O → EhMutexType) (w : Mutexes T O) (o : O) : Prop where
  type : (w.mutex o).type = type o
  excess : ∀ t, w.excess o t =
    if (w.mutex o).lockTask = some t then ((w.mutex o).lockCnt.toNat : Int) else 0
  owned : (w.mutex o).lockCnt ≠ 0 → ∃ t, (w.mutex o).lockTask = some t
  normal : (w.mutex o).type = .normal → (w.mutex o).lockCnt.toNat ≤ 1

variable {type : O → EhMutexType} {w : Mutexes T O} {o x : O} {t : T}

omit [DecidableEq O] in
theorem ok_create (lockTask : O → Option T) : (create type lockTask).Ok type o where
  type := rfl
  excess t := by simp [create, Mutexes.excess]
  owned locked := absurd rfl locked
  normal _ := by simp [create]

omit [DecidableEq O] in
theorem Ok.congr {w' : Mutexes T O} (h : w.Ok type o) (mutex : w'.mutex o = w.mutex o)
    (excess : ∀ t, w'.excess o t = w.excess o t) : w'.Ok type o where
  type := by
    rw [mutex]
    exact h.type
  excess t := by
    rw [mutex, excess]
    exact h.excess t
  owned := by
    rw [mutex]
    exact h.owned
  normal := by
    rw [mutex]
    exact h.normal

omit [DecidableEq O] in
theorem Ok.excess_eq_zero (h : w.Ok type o) {u : T}
    (other : (w.mutex o).lockCnt = 0 ∨ (w.mutex o).lockTask = some t ∧ u ≠ t) :
    w.excess o u = 0 := by
  rw [h.excess]
  rcases other with free | ⟨owner, ne⟩
  · simp [free]
  · simp [owner, Ne.symm ne]

theorem Ok.lock (h : w.Ok type x) {ret : Int}
    (granted : x = o → 0 ≤ ret → (w.mutex o).condition t = true) : (w.lock o t ret).Ok type x := by
  by_cases eq : x = o
  · subst eq
    rcases (w.mutex x).ehMutexLock_cases t ret with ⟨-, failed, same⟩ | ⟨fine, below, locked⟩
    · have kept : ∀ u, (w.lock x t ret).excess x u = w.excess x u := by
        intro u
        by_cases own : u = t
        · subst own
          simp [Mutexes.excess, Mutexes.lock, failed]
        · simp [Mutexes.excess, Mutexes.lock, own]
      exact h.congr (by simp [Mutexes.lock, same]) kept
    · have met := EhMutex.condition_iff.mp (granted rfl fine)
      have more := EhMutex.toNat_add_one below
      have mutex : (w.lock x t ret).mutex x = { w.mutex x with
          lockTask := some t, lockCnt := (w.mutex x).lockCnt + 1 } := by
        simp [Mutexes.lock, locked]
      have mine : (w.lock x t ret).excess x t = w.excess x t + 1 := by
        simp only [Mutexes.excess, Mutexes.lock, locked, Function.update_self, List.count_append,
          List.count_singleton_self]
        omega
      have before : w.excess x t = (w.mutex x).lockCnt.toNat := by
        rw [h.excess]
        rcases met with free | ⟨-, owner⟩
        · simp [free]
        · rw [if_pos owner]
      constructor
      · rw [mutex]
        exact h.type
      · intro u
        rw [mutex]
        dsimp only
        by_cases own : u = t
        · subst own
          rw [if_pos rfl, mine, before, more]
          omega
        · have other : (w.lock x t ret).excess x u = w.excess x u := by
            simp [Mutexes.excess, Mutexes.lock, own]
          rw [if_neg fun same => own (Option.some.inj same).symm, other]
          exact h.excess_eq_zero (met.imp_right fun owner => ⟨owner.2, own⟩)
      · rw [mutex]
        exact fun _ => ⟨t, rfl⟩
      · rw [mutex]
        dsimp only
        intro normal
        have free : (w.mutex x).lockCnt = 0 := by
          refine met.resolve_right fun owner => ?_
          rw [normal] at owner
          cases owner.1
        rw [more, free]
        rfl
  · exact h.congr (by simp [Mutexes.lock, eq]) (by simp [Mutexes.excess, Mutexes.lock, eq])

omit [DecidableEq O] in
theorem Ok.owner (h : w.Ok type o) : 0 < w.excess o t ↔
    (w.mutex o).lockCnt ≠ 0 ∧ (w.mutex o).lockTask = some t := by
  rw [h.excess]
  split
  · next owner =>
    simp only [owner, and_true]
    bv_omega
  · next other => simp [other]

theorem excess_unlock (w : Mutexes T O) (x o : O) (t u : T) : (w.unlock o t).excess x u =
    if x = o ∧ u = t ∧ 0 < w.excess o t then w.excess x u - 1 else w.excess x u := by
  have locks : (w.unlock o t).locks = w.locks := rfl
  have unlocks : (w.unlock o t).unlocks = if 0 < w.excess o t then
      Function.update w.unlocks o (Function.update (w.unlocks o) t (w.unlocks o t + 1))
    else w.unlocks := rfl
  rw [Mutexes.excess, locks, unlocks]
  by_cases more : 0 < w.excess o t
  · rw [if_pos more]
    by_cases here : x = o
    · subst here
      by_cases own : u = t
      · subst own
        rw [if_pos ⟨rfl, rfl, more⟩, Function.update_self, Function.update_self, Mutexes.excess]
        push_cast
        omega
      · rw [if_neg fun same => own same.2.1, Function.update_self, Function.update_of_ne own]
        rfl
    · rw [if_neg fun same => here same.1, Function.update_of_ne here]
      rfl
  · rw [if_neg more, if_neg fun same => more same.2.2]
    rfl

theorem Ok.unlock_owner (h : w.Ok type o) (more : 0 < w.excess o t) :
    (w.unlock o t).excess o t = w.excess o t - 1 ∧ (w.unlock o t).mutex o =
      { w.mutex o with lockCnt := (w.mutex o).lockCnt - 1 } := by
  obtain ⟨locked, owner⟩ := h.owner.mp more
  rcases (w.mutex o).ehMutexUnlock_cases t with ⟨refused, -⟩ | ⟨-, -, done⟩
  · exact absurd refused (not_or.mpr ⟨locked, not_not.mpr owner⟩)
  · exact ⟨by rw [excess_unlock, if_pos ⟨rfl, rfl, more⟩], by simp [Mutexes.unlock, done]⟩

theorem Ok.unlock (h : w.Ok type x) : (w.unlock o t).Ok type x := by
  by_cases owns : x = o ∧ 0 < w.excess o t
  · obtain ⟨rfl, more⟩ := owns
    have mutex := (h.unlock_owner more).2
    obtain ⟨locked, owner⟩ := h.owner.mp more
    have less := EhMutex.toNat_sub_one locked
    constructor
    · rw [mutex]
      exact h.type
    · intro u
      have before := h.excess u
      rw [mutex, excess_unlock]
      dsimp only
      rw [owner] at before ⊢
      by_cases own : u = t
      · subst own
        rw [if_pos rfl] at before ⊢
        rw [if_pos ⟨rfl, rfl, more⟩]
        omega
      · have other : some t ≠ some u := fun same => own (Option.some.inj same).symm
        rw [if_neg other] at before ⊢
        rw [if_neg fun same => own same.2.1]
        exact before
    · rw [mutex]
      exact fun _ => ⟨t, owner⟩
    · rw [mutex]
      dsimp only
      intro normal
      have few := h.normal normal
      omega
  · have kept : ∀ u, (w.unlock o t).excess x u = w.excess x u := fun u => by
      rw [excess_unlock, if_neg fun same => owns ⟨same.1, same.2.2⟩]
    refine h.congr ?_ kept
    by_cases here : x = o
    · subst here
      rcases (w.mutex x).ehMutexUnlock_cases t with ⟨-, -, same⟩ | ⟨locked, owner, -⟩
      · simp [Mutexes.unlock, same]
      · exact absurd ⟨rfl, h.owner.mpr ⟨locked, owner⟩⟩ owns
    · simp [Mutexes.unlock, here]

end Mutexes

variable [DecidableEq P]

/-- Whoever returns from a wait for the condition of a mutex still meets it, since nobody else
runs and no interrupt touches a mutex. -/
structure MutexOk (type : O → EhMutexType) (v : View T O P (Mutexes T O) O (MutexCall O)) :
    Prop where
  ok : ∀ o, v.world.Ok type o
  granted : ∀ {o ret}, v.phase = .verdict o ret → 0 ≤ ret →
    (v.world.mutex o).condition v.self = true
  calls : v.calls = []

theorem MutexOk.step {type : O → EhMutexType} {n : Nat}
    {v v' : View T O P (Mutexes T O) O (MutexCall O)} {i : Option O} (h : MutexOk type v)
    (step : View.Step (mutexSystem T O n) v i v') : MutexOk type v' := by
  have refused : ∀ {ret : Int}, ret = ehRetTimeout ∨ ret = ehRetEventError → ¬ 0 ≤ ret := by
    rintro ret (rfl | rfl) <;> decide
  cases step with
  | switch idle =>
    refine ⟨h.ok, fun eq => ?_, h.calls⟩
    cases idle.symm.trans eq
  | test running tested =>
    obtain ⟨-, rfl⟩ := mutexSystem_tested.mp tested
    exact h
  | join => exact ⟨h.ok, h.granted, h.calls⟩
  | met running tested =>
    obtain ⟨met, rfl⟩ := mutexSystem_tested.mp tested
    refine ⟨h.ok, fun eq _ => ?_, h.calls⟩
    cases eq
    exact met
  | triggered running plain => cases plain
  | refused running tested ret =>
    obtain ⟨-, rfl⟩ := mutexSystem_tested.mp tested
    refine ⟨h.ok, fun eq ok => ?_, h.calls⟩
    cases eq
    exact absurd ok (refused ret)
  | failed =>
    refine ⟨h.ok, fun eq ok => ?_, h.calls⟩
    cases eq
    exact absurd ok (refused (.inr rfl))
  | park running tested =>
    obtain ⟨-, rfl⟩ := mutexSystem_tested.mp tested
    exact ⟨h.ok, h.granted, h.calls⟩
  | finish phase =>
    refine ⟨fun o => ?_, fun eq => (nomatch eq), h.calls⟩
    apply (h.ok o).lock
    rintro rfl fine
    exact h.granted phase fine
  | @act a =>
    refine ⟨fun o => ?_, fun {o ret} eq => ?_, h.calls⟩
    · cases a with
      | unlock x => exact (h.ok o).unlock
      | unlockNotify x => exact h.ok o
    · cases rest : ((mutexSystem T O n).act a v.self v.world).rest with
      | none => rw [rest] at eq; cases eq
      | some b => rw [rest] at eq; cases eq
  | interrupt from_ =>
    rcases from_ with ⟨allowed, -⟩ | ⟨j, at_, -⟩
    · cases allowed
    · rw [h.calls] at at_
      cases at_
  | signal => exact ⟨h.ok, h.granted, h.calls⟩
  | unwatch => exact ⟨h.ok, h.granted, h.calls⟩

variable {n : Nat} {type : O → EhMutexType} {lockTask : O → Option T} {main : T}
  {s : Eh T O P (Mutexes T O) O (MutexCall O)}

theorem mutexOk_reachable
    (reachable : s.Reachable (mutexSystem T O n) main (Mutexes.create type lockTask)) :
    MutexOk type s.view :=
  reachable.view (fun h step => h.step step) (fun h => ⟨h.ok, h.granted, h.calls⟩)
    ⟨fun _ => Mutexes.ok_create lockTask, fun eq => (nomatch eq), rfl⟩

theorem lock_at_once {o : O} (user : s.point s.self = .user)
    (met : (s.world.mutex o).condition s.self = true) (timeout : Int) :
    ∃ s', (s.step (mutexSystem T O n) (.wait ⟨.object o, timeout⟩)).bind
        (fun s₁ => s₁.step (mutexSystem T O n) .go) = some s' ∧
      s'.point s.self = .user ∧ s'.world = s.world.lock o s.self ehRetOk := by
  have entered : s.step (mutexSystem T O n) (.wait ⟨.object o, timeout⟩) =
      some (s.setPoint s.self (.returned ⟨.object o, timeout⟩ ehRetOk)) := by
    simp [Eh.step, user, Eh.user, Eh.enter, Eh.condition, mutexSystem, met]
  rw [entered, Option.bind_some]
  have finished : (s.setPoint s.self (.returned ⟨.object o, timeout⟩ ehRetOk)).step
      (mutexSystem T O n) .go =
        some ({ s with world := s.world.lock o s.self ehRetOk }.setPoint s.self .user) := by
    simp [Eh.step, Eh.go, Eh.setPoint, Eh.afterWait, mutexSystem]
  exact ⟨_, finished, by simp [Eh.setPoint], rfl⟩

/-- Mutual exclusion. The count is the excess of the one task that has locked more often than
it has unlocked, only that task changes it, and a lock that fails changes nothing. -/
theorem ehMutex_safe (n : Nat) (type : O → EhMutexType) (lockTask : O → Option T) (main : T)
    (s : Eh T O P (Mutexes T O) O (MutexCall O))
    (reachable : s.Reachable (mutexSystem T O n) main (Mutexes.create type lockTask)) (o : O) :
    (∀ t u, 0 < s.world.excess o t → 0 < s.world.excess o u → t = u) ∧
    (∀ t, 0 ≤ s.world.excess o t ∧
      (0 < s.world.excess o t → s.world.excess o t = (s.world.mutex o).lockCnt.toNat)) ∧
    ((s.world.mutex o).lockCnt ≠ 0 → ∃ t, 0 < s.world.excess o t) ∧
    (∀ ret, s.view.phase = .verdict o ret →
      ((s.world.mutex o).ehMutexLock s.self ret).1 = ehRetOk →
      s.world.excess o s.self ≤ 0 → (s.world.mutex o).lockCnt = 0) ∧
    (type o = .normal → ∀ t, s.world.excess o t ≤ 1) ∧
    (type o = .recursive → s.point s.self = .user → 0 < s.world.excess o s.self →
      (∀ timeout, ∃ s', (s.step (mutexSystem T O n) (.wait ⟨.object o, timeout⟩)).bind
          (fun s₁ => s₁.step (mutexSystem T O n) .go) = some s' ∧
        s'.point s.self = .user ∧ s'.world = s.world.lock o s.self ehRetOk) ∧
      ((s.world.mutex o).ehMutexLock s.self ehRetOk).1 =
        if (s.world.mutex o).lockCnt = ehMutexLockCntMax then ehRetInvalidState else ehRetOk) ∧
    (∀ t, 0 < s.world.excess o t →
      (s.world.unlock o t).excess o t = s.world.excess o t - 1 ∧
      ((s.world.unlock o t).mutex o).lockCnt.toNat + 1 = (s.world.mutex o).lockCnt.toNat) ∧
    (∀ t, s.world.excess o t ≤ 0 → (s.world.unlock o t).mutex = s.world.mutex) ∧
    (∀ t ret, ((s.world.mutex o).ehMutexLock t ret).1 ≠ ehRetOk →
      (s.world.lock o t ret).mutex = s.world.mutex) ∧
    (∀ t ret, ret < 0 → ((s.world.mutex o).ehMutexLock t ret).1 = ret) := by
  have safe := mutexOk_reachable reachable
  have ok : s.world.Ok type o := safe.ok o
  refine ⟨?_, ?_, ?_, ?_, ?_, ?_, ?_, ?_, ?_, ?_⟩
  · intro t u moreT moreU
    have ownerT := (ok.owner.mp moreT).2
    rw [(ok.owner.mp moreU).2] at ownerT
    exact (Option.some.inj ownerT).symm
  · intro t
    refine ⟨?_, fun more => by rw [ok.excess, if_pos (ok.owner.mp more).2]⟩
    rw [ok.excess]
    split <;> omega
  · intro locked
    obtain ⟨t, owner⟩ := ok.owned locked
    exact ⟨t, ok.owner.mpr ⟨locked, owner⟩⟩
  · intro ret at_ locks none
    have fine : 0 ≤ ret := by
      rcases (s.world.mutex o).ehMutexLock_cases s.self ret with ⟨-, failed, -⟩ | ⟨fine, -⟩
      · exact absurd locks failed
      · exact fine
    rcases EhMutex.condition_iff.mp (safe.granted at_ fine) with free | ⟨-, owner⟩
    · exact free
    · by_contra locked
      exact absurd (ok.owner.mpr ⟨locked, owner⟩) (not_lt.mpr none)
  · intro normal t
    have few := ok.normal (ok.type.trans normal)
    rw [ok.excess]
    split <;> omega
  · intro recursive user more
    have met : (s.world.mutex o).condition s.self = true :=
      EhMutex.condition_iff.mpr (.inr ⟨ok.type.trans recursive, (ok.owner.mp more).2⟩)
    refine ⟨lock_at_once user met, ?_⟩
    rw [EhMutex.ehMutexLock, if_neg (by decide)]
    split <;> rfl
  · intro t more
    obtain ⟨less, mutex⟩ := ok.unlock_owner more
    rw [mutex]
    exact ⟨less, EhMutex.toNat_sub_one (ok.owner.mp more).1⟩
  · intro t none
    rcases (s.world.mutex o).ehMutexUnlock_cases t with ⟨-, -, same⟩ | ⟨locked, owner, -⟩
    · simp [Mutexes.unlock, same]
    · exact absurd (ok.owner.mpr ⟨locked, owner⟩) (not_lt.mpr none)
  · intro t ret fails
    rcases (s.world.mutex o).ehMutexLock_cases t ret with ⟨-, -, same⟩ | ⟨-, -, locks⟩
    · simp [Mutexes.lock, same]
    · rw [locks] at fails
      exact absurd rfl fails
  · intro t ret error
    rw [EhMutex.ehMutexLock, if_pos error]

/-- Main locks a recursive mutex, task 1 waits for it, main unlocks it, and task 1 locks it. -/
def handedOver : List (Label Nat Unit Unit Unit (MutexCall Unit)) :=
  [[.create 1 false false], Label.thenGo (.wait ⟨.object (), ehTimeForever⟩) 1,
    Label.thenGo .yield 4, Label.thenGo (.wait ⟨.object (), ehTimeForever⟩) 6,
    Label.thenGo (.act (.unlock ())) 1, Label.thenGo .yield 5].flatten

theorem handedOver_runs : (Eh.runs (mutexSystem Nat Unit 4) 0
    (Mutexes.create (fun _ => .recursive) fun _ => none) handedOver).isSome = true := rfl

theorem ehMutex_safe_two : ∃ s : Eh Nat Unit Unit (Mutexes Nat Unit) Unit (MutexCall Unit),
    s.Reachable (mutexSystem Nat Unit 4) 0 (Mutexes.create (fun _ => .recursive) fun _ => none) ∧
      s.self = 1 ∧ s.world.locks () 0 = [ehRetOk] ∧ s.world.locks () 1 = [ehRetOk] ∧
      s.world.unlocks () 0 = 1 ∧ (s.world.unlock () 0).mutex = s.world.mutex ∧
      ((s.world.unlock () 1).mutex ()).lockCnt.toNat + 1 = (s.world.mutex ()).lockCnt.toNat ∧
      ((s.world.mutex ()).ehMutexLock s.self ehRetOk).1 = ehRetOk := by
  have reachable := Eh.reachable_get handedOver_runs
  have safe := ehMutex_safe 4 (fun _ => .recursive) (fun _ => none) 0 _ reachable ()
  exact ⟨_, reachable, rfl, rfl, rfl, rfl, safe.2.2.2.2.2.2.2.1 0 (by decide),
    (safe.2.2.2.2.2.2.1 1 (by decide)).2, (safe.2.2.2.2.2.1 rfl rfl (by decide)).2⟩

end EventHub.Sync
