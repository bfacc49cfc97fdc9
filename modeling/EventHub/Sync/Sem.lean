import EventHub.Kernel.Simulation

/-! Semaphores. The waiters and the posters count in two words that wrap around. -/

namespace EventHub.Sync
open Library Event Kernel

structure EhSem where
  semNumP : BitVec 32
  semNumV : BitVec 32

namespace EhSem

def tokens (sem : EhSem) : Nat := (sem.semNumV - sem.semNumP).toNat

def create (value : BitVec 32) : EhSem := ⟨0, value⟩

def condition (sem : EhSem) : Bool := !(sem.semNumP == sem.semNumV)

/-- `eh_sem_wait` behind the wait. -/
def ehSemWait (sem : EhSem) (ret : Int) : Int × EhSem :=
  if ret < 0 then (ret, sem)
  else (ehRetOk, { sem with semNumP := sem.semNumP + 1 })

/-- `eh_sem_post`, up to the notification of its one waiter. -/
def ehSemPost (sem : EhSem) : Int × EhSem :=
  if sem.semNumV + 1 = sem.semNumP then (ehRetBusy, sem)
  else (ehRetOk, { sem with semNumV := sem.semNumV + 1 })

theorem tokens_create (value : BitVec 32) : (create value).tokens = value.toNat := by
  simp [create, tokens]

theorem tokens_lt (sem : EhSem) : sem.tokens < 2 ^ 32 := (sem.semNumV - sem.semNumP).isLt

theorem condition_iff (sem : EhSem) : sem.condition = true ↔ 0 < sem.tokens := by
  obtain ⟨p, v⟩ := sem
  simp only [condition, tokens, Bool.not_eq_true', beq_eq_false_iff_ne]
  constructor
  · intro ne
    bv_omega
  · rintro pos rfl
    simp at pos

theorem ehSemWait_error {ret : Int} (h : ret < 0) (sem : EhSem) :
    sem.ehSemWait ret = (ret, sem) := if_pos h

theorem ehSemWait_ok {ret : Int} (h : 0 ≤ ret) (sem : EhSem) :
    sem.ehSemWait ret = (ehRetOk, { sem with semNumP := sem.semNumP + 1 }) :=
  if_neg (Int.not_lt.mpr h)

theorem tokens_take {sem : EhSem} (pos : 0 < sem.tokens) :
    ({ sem with semNumP := sem.semNumP + 1 } : EhSem).tokens + 1 = sem.tokens := by
  obtain ⟨p, v⟩ := sem
  simp only [tokens] at pos ⊢
  bv_omega

theorem ehSemPost_busy_iff (sem : EhSem) :
    sem.ehSemPost.1 = ehRetBusy ↔ sem.tokens = 2 ^ 32 - 1 := by
  obtain ⟨p, v⟩ := sem
  simp only [ehSemPost, tokens]
  split
  · simp only [true_iff]
    bv_omega
  · simp [ehRetOk, ehRetBusy]
    bv_omega

theorem ehSemPost_cases (sem : EhSem) :
    sem.ehSemPost = (ehRetBusy, sem) ∨
      sem.ehSemPost.1 = ehRetOk ∧ sem.ehSemPost.2.tokens = sem.tokens + 1 := by
  obtain ⟨p, v⟩ := sem
  simp only [ehSemPost, tokens]
  split
  · exact .inl rfl
  · right
    refine ⟨rfl, ?_⟩
    dsimp only
    bv_omega

end EhSem

/-- The semaphores of a program, and the values that the calls have returned so far. -/
structure Sems (O : Type) where
  sem : O → EhSem
  waited : O → List Int
  posted : O → List Int

variable {T O P : Type}

namespace Sems

def create (value : O → BitVec 32) : Sems O :=
  ⟨fun o => .create (value o), fun _ => [], fun _ => []⟩

variable [DecidableEq O]

def wait (w : Sems O) (o : O) (ret : Int) : Sems O :=
  let done := (w.sem o).ehSemWait ret
  { w with
    sem := Function.update w.sem o done.2
    waited := Function.update w.waited o (w.waited o ++ [done.1]) }

def post (w : Sems O) (o : O) : Sems O :=
  let done := (w.sem o).ehSemPost
  { w with
    sem := Function.update w.sem o done.2
    posted := Function.update w.posted o (w.posted o ++ [done.1]) }

end Sems

variable [DecidableEq O]

def semSystem (T O : Type) [DecidableEq O] (dispatchCntPerPoll : Nat) :
    System T O (Sems O) O O where
  dispatchCntPerPoll := dispatchCntPerPoll
  event o := o
  condition o := some fun _ w => ((w.sem o).condition, w)
  finish o _ ret w := w.wait o ret
  act o _ w :=
    { world := w.post o
      signal := if (w.sem o).ehSemPost.1 = ehRetOk then some (.notifyAndReorder o 1) else none
      rest := none }
  fromTask _ := true
  fromInterrupt _ := true

namespace Sems

/-- The tokens are those of the start and of the posts, less those taken. -/
def Conserved (value : O → BitVec 32) (w : Sems O) (o : O) : Prop :=
  (value o).toNat + (w.posted o).count ehRetOk =
    (w.sem o).tokens + (w.waited o).count ehRetOk

variable {value : O → BitVec 32} {w : Sems O} {o x : O}

omit [DecidableEq O] in
theorem conserved_create : (create value).Conserved value o := by
  simp [Conserved, create, EhSem.tokens_create]

theorem Conserved.post (h : w.Conserved value x) : (w.post o).Conserved value x := by
  by_cases eq : x = o
  · subst eq
    have before : (value x).toNat + (w.posted x).count ehRetOk =
      (w.sem x).tokens + (w.waited x).count ehRetOk := h
    rcases (w.sem x).ehSemPost_cases with busy | ⟨ok, more⟩
    · simp [Conserved, Sems.post, busy, ehRetOk, ehRetBusy] at before ⊢
      exact before
    · simp only [Conserved, Sems.post, Function.update_self, ok, more, List.count_append,
        List.count_singleton_self]
      omega
  · simpa [Conserved, Sems.post, eq] using h

theorem Conserved.wait (h : w.Conserved value x) {ret : Int}
    (granted : x = o → 0 ≤ ret → 0 < (w.sem o).tokens) :
    (w.wait o ret).Conserved value x := by
  by_cases eq : x = o
  · subst eq
    have before : (value x).toNat + (w.posted x).count ehRetOk =
      (w.sem x).tokens + (w.waited x).count ehRetOk := h
    by_cases error : ret < 0
    · have ne : ret ≠ ehRetOk := by
        rintro rfl
        exact absurd error (by decide)
      simpa [Conserved, Sems.wait, EhSem.ehSemWait_error error, ne] using before
    · have ok : 0 ≤ ret := Int.not_lt.mp error
      have taken := EhSem.tokens_take (granted rfl ok)
      simp only [Conserved, Sems.wait, Function.update_self, EhSem.ehSemWait_ok ok,
        List.count_append, List.count_singleton_self]
      omega
  · simpa [Conserved, Sems.wait, eq] using h

theorem tokens_le_post (w : Sems O) (o x : O) : (w.sem x).tokens ≤ ((w.post o).sem x).tokens := by
  by_cases eq : x = o
  · subst eq
    rcases (w.sem x).ehSemPost_cases with busy | ⟨-, more⟩
    · simp [Sems.post, busy]
    · simp [Sems.post, more]
  · simp [Sems.post, eq]

end Sems

theorem semSystem_tested {n : Nat} {o : O} {t : T} {w w' : Sems O} {met : Bool} :
    (semSystem T O n).Tested o t w met w' ↔ (w.sem o).condition = met ∧ w' = w := by
  simp [System.Tested, semSystem, eq_comm]

variable [DecidableEq T] [DecidableEq P]

structure SemOk (value : O → BitVec 32) (v : View T O P (Sems O) O O) : Prop where
  conserved : ∀ o, v.world.Conserved value o
  granted : ∀ {o ret}, v.phase = .verdict o ret → 0 ≤ ret → 0 < (v.world.sem o).tokens

theorem SemOk.step {value : O → BitVec 32} {n : Nat} {v v' : View T O P (Sems O) O O}
    {i : Option O} (h : SemOk value v) (step : View.Step (semSystem T O n) v i v') :
    SemOk value v' := by
  have refused : ∀ {ret : Int}, ret = ehRetTimeout ∨ ret = ehRetEventError → ¬ 0 ≤ ret := by
    rintro ret (rfl | rfl) <;> decide
  cases step with
  | switch => exact ⟨h.conserved, h.granted⟩
  | test running tested =>
    obtain ⟨-, rfl⟩ := semSystem_tested.mp tested
    exact h
  | join => exact ⟨h.conserved, h.granted⟩
  | met running tested =>
    obtain ⟨met, rfl⟩ := semSystem_tested.mp tested
    refine ⟨h.conserved, fun eq _ => ?_⟩
    cases eq
    exact (EhSem.condition_iff _).mp met
  | triggered running plain => cases plain
  | refused running tested ret =>
    obtain ⟨-, rfl⟩ := semSystem_tested.mp tested
    refine ⟨h.conserved, fun eq ok => ?_⟩
    cases eq
    exact absurd ok (refused ret)
  | failed =>
    refine ⟨h.conserved, fun eq ok => ?_⟩
    cases eq
    exact absurd ok (refused (.inr rfl))
  | park running tested =>
    obtain ⟨-, rfl⟩ := semSystem_tested.mp tested
    exact ⟨h.conserved, h.granted⟩
  | @finish c ret phase =>
    refine ⟨fun o => (h.conserved o).wait fun _ ok => h.granted phase ok, fun eq => by cases eq⟩
  | act =>
    exact ⟨fun o => (h.conserved o).post, fun eq => by cases eq⟩
  | interrupt =>
    exact ⟨fun o => (h.conserved o).post, fun {o ret} eq ok =>
      (h.granted eq ok).trans_le (v.world.tokens_le_post _ o)⟩
  | signal => exact ⟨h.conserved, h.granted⟩
  | unwatch => exact ⟨h.conserved, h.granted⟩

theorem semOk_reachable {value : O → BitVec 32} {n : Nat} {main : T}
    {s : Eh T O P (Sems O) O O}
    (reachable : s.Reachable (semSystem T O n) main (Sems.create value)) :
    SemOk value s.view :=
  reachable.view (fun h step => h.step step) (fun h => ⟨h.conserved, h.granted⟩)
    ⟨fun _ => Sems.conserved_create, fun eq => by cases eq⟩

/-- Tokens are conserved: a wait that returns an error takes none, one that succeeds takes one
that is there, and a post fails only when no further token can be counted. -/
theorem ehSem_conserves_tokens (n : Nat) (value : O → BitVec 32) (main : T)
    (s : Eh T O P (Sems O) O O)
    (reachable : s.Reachable (semSystem T O n) main (Sems.create value)) (o : O) :
    ((value o).toNat + (s.world.posted o).count ehRetOk =
        (s.world.sem o).tokens + (s.world.waited o).count ehRetOk ∧
      (s.world.sem o).tokens ≤ 2 ^ 32 - 1) ∧
    ((s.world.sem o).ehSemPost.1 = ehRetBusy ↔ (s.world.sem o).tokens = 2 ^ 32 - 1) ∧
    ((s.world.sem o).ehSemPost.1 = ehRetBusy → (s.world.post o).sem = s.world.sem) ∧
    (∀ ret, ret < 0 → (s.world.wait o ret).sem = s.world.sem) ∧
    (∀ ret, s.view.phase = .verdict o ret → 0 ≤ ret →
      ((s.world.wait o ret).sem o).tokens + 1 = (s.world.sem o).tokens) := by
  have ok := semOk_reachable reachable
  have lt := (s.world.sem o).tokens_lt
  refine ⟨⟨ok.conserved o, by omega⟩, (s.world.sem o).ehSemPost_busy_iff, ?_, ?_, ?_⟩
  · intro busy
    rcases (s.world.sem o).ehSemPost_cases with same | ⟨fine, -⟩
    · simp [Sems.post, same]
    · rw [fine] at busy
      cases busy
  · intro ret error
    simp [Sems.wait, EhSem.ehSemWait_error error]
  · intro ret at_ fine
    have pos : 0 < (s.world.sem o).tokens := ok.granted at_ fine
    have taken := EhSem.tokens_take pos
    simpa [Sems.wait, EhSem.ehSemWait_ok fine] using taken

/-- Task 1 waits for the only semaphore, main posts it, and task 1 leaves its wait. -/
def posted : List (Label Nat Unit Unit Unit Unit) :=
  [Label.thenGo (.create 1 false false) 0, Label.thenGo .yield 4,
    Label.thenGo (.wait ⟨.object (), ehTimeForever⟩) 6, Label.thenGo (.act ()) 0,
    Label.thenGo .yield 4].flatten

theorem posted_runs :
    (Eh.runs (semSystem Nat Unit 4) 0 (Sems.create fun _ => 0) posted).isSome = true := rfl

theorem ehSem_conserves_tokens_one : ∃ s : Eh Nat Unit Unit (Sems Unit) Unit Unit,
    s.Reachable (semSystem Nat Unit 4) 0 (Sems.create fun _ => 0) ∧
      ((s.world.wait () 0).sem ()).tokens + 1 = (s.world.sem ()).tokens := by
  have reachable := Eh.reachable_get posted_runs
  have safe := ehSem_conserves_tokens 4 (fun _ => 0) 0 _ reachable ()
  exact ⟨_, reachable, safe.2.2.2.2 0 rfl (by decide)⟩

end EventHub.Sync
