import EventHub.Sync.Flags
import EventHub.Library.Transition

/-! Event flags where the critical section is a mutex. The compare-exchange of the other threads
does not take it, and the condition of a wait reads and writes the flags inside it. -/

namespace EventHub.Sync
open Library Kernel

variable {U : Type} {w : Nat}

/-- Where the tasks' thread is in `condition_event_flags`: before the test, before the store
through `reality_flags`, and before the load and the store of the change. -/
inductive Consumer (w : Nat) where
  | idle
  | test (c : FlagsConditionArg Unit w)
  | report (c : FlagsConditionArg Unit w)
  | load (c : FlagsConditionArg Unit w)
  | store (c : FlagsConditionArg Unit w) (old : BitVec w)
deriving DecidableEq

/-- One object. `due` is a history: the bits that set calls have set, which then return
`EH_RET_OK`, less those that a clear or an update has removed since, and those that a wait has
removed which has read them. -/
structure Hosted (U : Type) (w : Nat) where
  flags : BitVec w
  reality : BitVec w
  consumer : Consumer w
  call : U → Option (FlagsCall Unit w)
  returned : U → List Int
  due : BitVec w

inductive HostedLabel (U : Type) (w : Nat) where
  | wait (c : FlagsConditionArg Unit w)
  | consumer
  | call (u : U) (a : FlagsCall Unit w)
  | caller (u : U)

namespace FlagsConditionArg

def removes (c : FlagsConditionArg Unit w) (old : BitVec w) : BitVec w :=
  match c.type with
  | .waitSet => old &&& c.changeFlags
  | .waitClean => 0

def covers (c : FlagsConditionArg Unit w) (old : BitVec w) : BitVec w :=
  match c.type with
  | .waitSet => old
  | .waitClean => old ||| c.changeFlags

theorem getLsbD_covers {c : FlagsConditionArg Unit w} {old : BitVec w} {b : Nat}
    (set : old.getLsbD b = true) : (c.covers old).getLsbD b = true := by
  rw [covers]
  cases c.type
  · simp [set]
  · exact set

theorem getLsbD_change {c : FlagsConditionArg Unit w} {old : BitVec w} {b : Nat}
    (read : (c.covers old).getLsbD b = true) (kept : (c.removes old).getLsbD b = false) :
    (c.change old).getLsbD b = true := by
  rw [covers] at read
  rw [removes] at kept
  rw [change]
  cases type : c.type with
  | waitClean =>
    rw [type] at read
    exact read
  | waitSet =>
    rw [type] at read kept
    have lt := BitVec.lt_of_getLsbD read
    simpa [read, lt, -BitVec.getLsbD_eq_getElem] using kept

end FlagsConditionArg

namespace Hosted

def init : Hosted U w := ⟨0, 0, .idle, fun _ => none, fun _ => [], 0⟩

def consumerStep (s : Hosted U w) : Hosted U w :=
  match s.consumer with
  | .idle => s
  | .test c =>
    if c.met s.flags then { s with consumer := if c.realityFlags then .report c else .load c }
    else { s with consumer := .idle }
  | .report c => { s with reality := s.flags &&& c.waitFlags, consumer := .load c }
  | .load c => { s with consumer := .store c s.flags }
  | .store c old =>
    { s with
      flags := c.change old
      consumer := .idle
      due := s.due &&& ~~~c.removes old }

variable [DecidableEq U]

def setCall (s : Hosted U w) (u : U) (a : FlagsCall Unit w) : Hosted U w :=
  { s with call := Function.update s.call u (some a) }

def returns (s : Hosted U w) (u : U) (ret : Int) : Hosted U w :=
  { s with
    call := Function.update s.call u none
    returned := Function.update s.returned u (s.returned u ++ [ret]) }

def attempt (s : Hosted U w) (u : U) (op : FlagsOp) (flags : BitVec w) : Hosted U w :=
  if op.newFlags s.flags flags = s.flags then s.returns u ehRetExists
  else s.setCall u (.exchange op () flags s.flags)

def callerStep (s : Hosted U w) (u : U) : FlagsCall Unit w → Option (Hosted U w)
  | .load op _ flags => some (s.attempt u op flags)
  | .exchange op _ flags old =>
    if s.flags = old then
      some { s.setCall u (.notify ()) with
        flags := op.newFlags old flags
        due := match op with
          | .setBits => s.due ||| flags
          | .clearBits => s.due &&& ~~~flags }
    else some (s.attempt u op flags)
  | .update _ flags =>
    let stored := { s with flags := flags, due := s.due &&& flags }
    if s.flags ≠ flags then some (stored.setCall u (.notify ()))
    else some (stored.returns u ehRetOk)
  -- `eh_event_notify` waits for the critical section.
  | .notify _ => if s.consumer = .idle then some (s.returns u ehRetOk) else none

def step (s : Hosted U w) : HostedLabel U w → Option (Hosted U w)
  | .wait c => if s.consumer = .idle then some { s with consumer := .test c } else none
  | .consumer => some s.consumerStep
  | .call u a => if s.call u = none ∧ a.starts = true then some (s.setCall u a) else none
  | .caller u => (s.call u).bind (s.callerStep u)

/-- A step at which no set call exchanges, between the load and the store of a wait, the flags for
ones with a bit that the wait neither has read nor sets. -/
def Timely (s : Hosted U w) (l : HostedLabel U w) (s' : Hosted U w) : Prop :=
  s.step l = some s' ∧
    ∀ u flags old c read, l = .caller u → s.call u = some (.exchange .setBits () flags old) →
      s.flags = old → s.consumer = .store c read →
      ∀ b, flags.getLsbD b = true → (c.covers read).getLsbD b = true

/-- The bits that are due are set, and the wait that is about to store has read them. -/
structure Kept (s : Hosted U w) : Prop where
  due : ∀ b, s.due.getLsbD b = true → s.flags.getLsbD b = true
  read : ∀ {c old}, s.consumer = .store c old →
    ∀ b, s.due.getLsbD b = true → (c.covers old).getLsbD b = true

variable {s s' : Hosted U w}

omit [DecidableEq U] in
theorem Kept.consumer (h : Kept s) : Kept s.consumerStep := by
  rw [consumerStep]
  split
  · exact h
  · split
    · refine ⟨h.due, fun eq => ?_⟩
      dsimp only at eq
      split at eq <;> cases eq
    · exact ⟨h.due, fun eq => (nomatch eq)⟩
  · exact ⟨h.due, fun eq => (nomatch eq)⟩
  · refine ⟨h.due, fun eq b due => ?_⟩
    cases eq
    exact FlagsConditionArg.getLsbD_covers (h.due b due)
  · next c old at_ =>
    refine ⟨fun b due => ?_, fun eq => (nomatch eq)⟩
    simp only [BitVec.getLsbD_and, BitVec.getLsbD_not, Bool.and_eq_true, Bool.not_eq_true',
      decide_eq_true_eq] at due
    exact FlagsConditionArg.getLsbD_change (h.read at_ b due.1) due.2.2

theorem Kept.attempt (h : Kept s) (u : U) (op : FlagsOp) (flags : BitVec w) :
    Kept (s.attempt u op flags) := by
  rw [Hosted.attempt]
  split <;> exact ⟨h.due, h.read⟩

theorem Kept.step {l : HostedLabel U w} (h : Kept s) (step : Timely s l s') : Kept s' := by
  obtain ⟨step, timely⟩ := step
  cases l with
  | wait c =>
    rw [Hosted.step] at step
    split at step
    · cases step
      exact ⟨h.due, fun eq => (nomatch eq)⟩
    · cases step
  | consumer =>
    cases step
    exact h.consumer
  | call u a =>
    rw [Hosted.step] at step
    split at step
    · cases step
      exact ⟨h.due, h.read⟩
    · cases step
  | caller u =>
    rw [Hosted.step] at step
    obtain ⟨a, at_, step⟩ := Option.bind_eq_some_iff.mp step
    cases a with
    | load op o flags =>
      cases step
      exact h.attempt u op flags
    | exchange op o flags old =>
      simp only [callerStep] at step
      split at step
      · next same =>
        cases step
        cases op with
        | setBits =>
          have more : ∀ b, (s.due ||| flags).getLsbD b = true →
              s.due.getLsbD b = true ∨ flags.getLsbD b = true := by simp
          constructor
          · intro b due
            subst same
            rcases more b due with before | new
            · simp [FlagsOp.newFlags, h.due b before]
            · simp [FlagsOp.newFlags, new]
          · intro c read reading b due
            rcases more b due with before | new
            · exact h.read reading b before
            · exact timely u flags old c read rfl at_ same reading b new
        | clearBits =>
          have less : ∀ b, (s.due &&& ~~~flags).getLsbD b = true →
              s.due.getLsbD b = true ∧ (~~~flags).getLsbD b = true := by simp
          constructor
          · intro b due
            subst same
            obtain ⟨before, out⟩ := less b due
            rw [FlagsOp.newFlags, BitVec.getLsbD_and, h.due b before, out]
            rfl
          · exact fun reading b due => h.read reading b (less b due).1
      · cases step
        exact h.attempt u op flags
    | update o flags =>
      have less : ∀ b, (s.due &&& flags).getLsbD b = true →
          s.due.getLsbD b = true ∧ flags.getLsbD b = true := by simp
      simp only [callerStep] at step
      split at step
      · cases step
        exact ⟨fun b due => (less b due).2, fun reading b due => h.read reading b (less b due).1⟩
      · cases step
        exact ⟨fun b due => (less b due).2, fun reading b due => h.read reading b (less b due).1⟩
    | notify o =>
      simp only [callerStep] at step
      split at step
      · cases step
        exact ⟨h.due, h.read⟩
      · cases step

/-- In a run in which no set call sets a bit between the load and the store of a wait that has
not read it, a bit stays set until a clear, an update or a wait that has read it removes it. -/
theorem ehEventFlags_set_kept (ls : List (HostedLabel U w)) (s : Hosted U w)
    (run : Run Timely init ls s) (b : Nat) (due : s.due.getLsbD b = true) :
    s.flags.getLsbD b = true := by
  have start : Kept (init : Hosted U w) := ⟨fun b due => by simp [init] at due, fun eq => by cases eq⟩
  have kept : Kept s := run.invariant (fun h step => h.step step) start
  exact kept.due b due

def setsBit : List (HostedLabel Bool 8) :=
  [.call false (.ehEventFlagsSetBitsChangeNotify () 1), .caller false, .caller false, .caller false]

/-- A wait reads bit 0, and before it stores, another thread loads the flags to set bit 1; its
exchange then fails, and it tries again. -/
def loadsBefore : List (HostedLabel Bool 8) :=
  setsBit ++ [.wait (ehEventFlagsWaitBitsSet () 1 1 false), .consumer, .consumer,
    .call true (.ehEventFlagsSetBitsChangeNotify () 2), .caller true, .consumer, .caller true,
    .caller true, .caller true]

/-- The steps at which no set call exchanges between the load and the store of a wait. -/
def apartStep (s : Hosted Bool 8) (l : HostedLabel Bool 8) : Option (Hosted Bool 8) :=
  match l, s.consumer with
  | .caller u, .store _ _ =>
    match s.call u with
    | some (.exchange _ _ _ old) => if s.flags = old then none else s.step l
    | _ => s.step l
  | _, _ => s.step l

theorem apartStep_timely {s t : Hosted Bool 8} {l : HostedLabel Bool 8}
    (step : apartStep s l = some t) : Timely s l t := by
  unfold apartStep at step
  split at step
  · next u c read storing =>
    split at step
    · next op o flags old call =>
      split at step
      · cases step
      · next other =>
        refine ⟨step, fun u' flags' old' c' read' eq call' same => ?_⟩
        cases eq
        cases call.symm.trans call'
        exact absurd same other
    · next no =>
      refine ⟨step, fun u' flags' old' c' read' eq call' => ?_⟩
      cases eq
      exact (no _ _ _ _ call').elim
  · next no =>
    refine ⟨step, fun u flags old c read eq _ _ storing => ?_⟩
    exact (no u c read eq storing).elim

theorem loadsBefore_runs : (loadsBefore.foldlM apartStep init).isSome = true := rfl

theorem ehEventFlags_set_kept_retried : ∃ s : Hosted Bool 8,
    s.returned false = [ehRetOk] ∧ s.returned true = [ehRetOk] ∧ s.consumer = .idle ∧
      s.flags.getLsbD 0 = false ∧ s.flags.getLsbD 1 = true :=
  ⟨_, rfl, rfl, rfl, rfl, ehEventFlags_set_kept loadsBefore _
    ((Run.of_foldlM_some (Option.some_get loadsBefore_runs).symm).imp apartStep_timely) 1 rfl⟩

def storesOver : List (HostedLabel Bool 8) :=
  setsBit ++ [.wait (ehEventFlagsWaitBitsSet () 1 1 false), .consumer, .consumer,
    .call true (.ehEventFlagsSetBitsChangeNotify () 2), .caller true, .caller true, .consumer,
    .caller true]

theorem storesOver_runs : (storesOver.foldlM step init).isSome = true := rfl

/-- The bit that the other thread has set is lost. -/
theorem ehEventFlags_set_lost :
    ¬ ∀ (ls : List (HostedLabel Bool 8)) (s : Hosted Bool 8) (b : Nat),
      Run (fun s l t => s.step l = some t) init ls s → s.due.getLsbD b = true →
      s.returned true = [ehRetOk] → s.flags.getLsbD b = true := by
  intro claim
  have run := Run.of_foldlM_some (Option.some_get storesOver_runs).symm
  have set := claim _ _ 1 run (by decide) (by decide)
  exact absurd set (by decide)

end Hosted

end EventHub.Sync
