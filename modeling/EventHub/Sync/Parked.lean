import EventHub.Sync.Flags

/-! Who sleeps in a wait for flags. A change of the flags is notified, but for the changes that a
condition makes when it is met. -/

namespace EventHub.Sync
open Library Event Kernel

section Queued
variable {T O P W C A : Type} {sys : System T O W C A} {v v' : View T O P W C A} {i : Option C}

def Queued (sys : System T O W C A) (v : View T O P W C A) : Prop :=
  ∀ t c, v.sleeping t = some c → .wait t ∈ v.queue (sys.event c)

variable [DecidableEq O]

theorem mem_after {g : Option (Signal O)} {queue : O → List (Receptor (EhEvent T O) T P)} {x : O}
    {r : Receptor (EhEvent T O) T P} (mem : r ∈ queue x) (out : r ∉ Signal.reached g queue) :
    r ∈ Signal.after g queue x := by
  cases g with
  | none => exact mem
  | some g =>
    cases g with
    | notify o => exact mem
    | clean o =>
      have ne : x ≠ o := by
        rintro rfl
        exact out mem
      simpa [Signal.after, ne] using mem
    | notifyAndReorder o num =>
      by_cases eq : x = o
      · subst eq
        rw [Signal.after, Function.update_self, List.mem_append]
        left
        rw [← List.take_append_drop num.toNat (queue x), List.mem_append] at mem
        exact mem.resolve_left out
      · simpa [Signal.after, eq] using mem

theorem Queued.woken (h : Queued sys v) {g : Option (Signal O)} {sleeping : T → Option C}
    (woken : v.Woken g sleeping) {t : T} {c : C} (asleep : sleeping t = some c) :
    v.sleeping t = some c ∧ .wait t ∉ Signal.reached g v.queue ∧
      .wait t ∈ Signal.after g v.queue (sys.event c) := by
  have out : .wait t ∉ Signal.reached g v.queue := by
    intro mem
    rw [woken.reached t mem] at asleep
    cases asleep
  have before : v.sleeping t = some c := by
    rcases woken.kept t with same | none
    · rw [← same, asleep]
    · rw [none] at asleep
      cases asleep
  exact ⟨before, out, mem_after (h t c before) out⟩

variable [DecidableEq T] [DecidableEq P]

theorem Queued.leave (h : Queued sys v) (awake : v.sleeping v.self = none) {c c' : C} {t : T}
    (asleep : v.sleeping t = some c') : .wait t ∈ v.leave sys c (sys.event c') := by
  have ne : t ≠ v.self := by
    rintro rfl
    rw [awake] at asleep
    cases asleep
  have mem := h _ _ asleep
  rw [View.leave]
  by_cases eq : sys.event c' = sys.event c
  · rw [eq, Function.update_self]
    rw [eq] at mem
    apply (List.mem_erase_of_ne _).mpr mem
    simpa using ne
  · rwa [Function.update_of_ne eq]

theorem Queued.step (h : Queued sys v) (step : View.Step sys v i v') : Queued sys v' := by
  intro t c' asleep
  cases step with
  | @join c running =>
    have mem := h _ _ asleep
    by_cases eq : sys.event c' = sys.event c
    · rw [eq] at mem ⊢
      simp [mem]
    · simpa [eq] using mem
  | met running | triggered running | refused running => exact h.leave running.awake asleep
  | @park c world running tested linked =>
    dsimp only at asleep ⊢
    by_cases eq : t = v.self
    · rw [eq, Function.update_self] at asleep
      cases asleep
      rw [eq]
      exact linked
    · rw [Function.update_of_ne eq] at asleep
      exact h _ _ asleep
  | act _ woken | interrupt _ woken | signal woken => exact (h.woken woken asleep).2.2
  | @unwatch p o =>
    have mem := h _ _ asleep
    by_cases eq : sys.event c' = o
    · rw [eq] at mem ⊢
      dsimp only
      rw [Function.update_self]
      apply (List.mem_erase_of_ne _).mpr mem
      simp
    · simpa [eq] using mem
  | _ => exact h _ _ asleep

omit [DecidableEq T] [DecidableEq P] in
theorem Queued.watch {p : P} {x : O} (h : Queued sys v) : Queued sys (v.watch p x) := by
  intro t c asleep
  have mem := h _ _ asleep
  rw [View.watch]
  by_cases eq : sys.event c = x
  · rw [eq] at mem ⊢
    simp [mem]
  · simpa [eq] using mem

end Queued

variable {T O P : Type} {w : Nat}

/-- Behind the change that this condition makes, the other one is still not met. -/
def FlagsConditionArg.spares (c : FlagsConditionArg O w) (flags : BitVec w)
    (other : FlagsConditionArg O w) : Prop :=
  match c.type, other.type with
  | .waitSet, .waitClean => flags &&& other.waitFlags &&& ~~~c.changeFlags ≠ 0
  | .waitClean, .waitSet => c.changeFlags &&& other.waitFlags = 0
  | .waitSet, .waitSet | .waitClean, .waitClean => True

theorem FlagsConditionArg.spares_iff {c other : FlagsConditionArg O w} {flags : BitVec w}
    (unmet : other.met flags = false) :
    c.spares flags other ↔ other.met (c.change flags) = false := by
  have cleared : ∀ a b d : BitVec w, (a &&& ~~~b) &&& d = (a &&& d) &&& ~~~b := by
    intro a b d
    rw [BitVec.and_assoc, BitVec.and_comm (~~~b), ← BitVec.and_assoc]
  have joined : ∀ a b d : BitVec w, (a ||| b) &&& d = (a &&& d) ||| (b &&& d) := by
    intro a b d
    ext i
    simp [Bool.and_or_distrib_right]
  cases type : c.type <;> cases type' : other.type <;>
    simp only [met, change, spares, type, type', beq_eq_false_iff_ne, Bool.not_eq_false',
      beq_iff_eq, cleared, joined] at unmet ⊢
  case waitClean.waitClean =>
    exact ⟨fun _ zero => unmet (BitVec.or_eq_zero_iff.mp zero).1, fun _ => trivial⟩
  case waitClean.waitSet => simp [unmet]
  case waitSet.waitSet => simp [unmet]

def Notifying (v : View T O P (EventFlags T O w) (FlagsConditionArg O w) (FlagsCall O w))
    (o : O) : Prop :=
  v.phase = .acting (.notify o) ∨ .notify o ∈ v.calls

theorem Notifying.idle
    {v : View T O P (EventFlags T O w) (FlagsConditionArg O w) (FlagsCall O w)} {o : O}
    (h : Notifying v o) (idle : v.phase = .idle) : .notify o ∈ v.calls := by
  refine h.resolve_left fun acting => ?_
  cases idle.symm.trans acting

variable [DecidableEq T] [DecidableEq O] [DecidableEq P]

/-- A step at which a wait whose condition is met spares the tasks that sleep there. -/
def Sparing (n : Nat) (s : Eh T O P (EventFlags T O w) (FlagsConditionArg O w) (FlagsCall O w))
    (l : Label T O P (FlagsConditionArg O w) (FlagsCall O w))
    (s' : Eh T O P (EventFlags T O w) (FlagsConditionArg O w) (FlagsCall O w)) : Prop :=
  s.step (flagsSystem T O w n) l = some s' ∧
    ∀ c t other, s.tests l = some c → c.met (s.world.flags c.ef) = true →
      ¬ Notifying s.view c.ef → s.view.sleeping t = some other → other.ef = c.ef →
      other.met (s.world.flags c.ef) = false → c.spares (s.world.flags c.ef) other

structure FlagsParked (n : Nat)
    (v : View T O P (EventFlags T O w) (FlagsConditionArg O w) (FlagsCall O w)) : Prop where
  queued : Queued (flagsSystem T O w n) v
  stuck : ∀ {t c}, v.sleeping t = some c → c.met (v.world.flags c.ef) = true → Notifying v c.ef

omit [DecidableEq T] in
theorem act_flags (x : EventFlags T O w) (a : FlagsCall O w) (o : O) :
    (x.act a).world.flags o = x.flags o ∨ (x.act a).rest = some (.notify o) := by
  have attempted : ∀ op p flags, (x.attempt op p flags).world.flags o = x.flags o := by
    intro op p flags
    rw [EventFlags.attempt]
    split <;> rfl
  have stored : ∀ p flags, p ≠ o → (x.store p flags).flags o = x.flags o :=
    fun p flags ne => Function.update_of_ne (Ne.symm ne) _ _
  cases a with
  | load op p flags => exact .inl (attempted op p flags)
  | exchange op p flags old =>
    rw [EventFlags.act]
    split
    · by_cases eq : p = o
      · exact .inr (by rw [eq])
      · exact .inl (stored _ _ eq)
    · exact .inl (attempted op p flags)
  | update p flags =>
    simp only [EventFlags.act]
    split
    · by_cases eq : p = o
      · exact .inr (by rw [eq])
      · exact .inl (stored _ _ eq)
    · next same =>
      left
      by_cases eq : p = o
      · subst eq
        simpa [EventFlags.store, EventFlags.returns] using (not_not.mp same).symm
      · exact stored _ _ eq
  | notify p => exact .inl rfl

theorem FlagsParked.step {n : Nat}
    {v v' : View T O P (EventFlags T O w) (FlagsConditionArg O w) (FlagsCall O w)}
    {i : Option (FlagsConditionArg O w)} (h : FlagsParked n v)
    (step : View.Step (flagsSystem T O w n) v i v')
    (spared : ∀ c t other, i = some c → c.met (v.world.flags c.ef) = true →
      ¬ Notifying v c.ef → v.sleeping t = some other → other.ef = c.ef →
      other.met (v.world.flags c.ef) = false → c.spares (v.world.flags c.ef) other) :
    FlagsParked n v' := by
  refine ⟨h.queued.step step, fun {t other} asleep met => ?_⟩
  cases step with
  | test running tested =>
    obtain ⟨-, rfl⟩ := conditionEventFlags_false (flagsSystem_tested.mp tested)
    exact h.stuck asleep met
  | @met c world running tested =>
    obtain ⟨holds, rfl⟩ := conditionEventFlags_true (flagsSystem_tested.mp tested)
    by_cases pending : Notifying v other.ef
    · exact .inr (pending.idle running.idle)
    · have before : other.met (v.world.flags other.ef) = false := by
        rw [← Bool.not_eq_true]
        exact fun met => pending (h.stuck asleep met)
      exfalso
      change other.met (Function.update v.world.flags c.ef (c.change (v.world.flags c.ef))
        other.ef) = true at met
      by_cases eq : other.ef = c.ef
      · rw [eq] at pending before met
        have after := (FlagsConditionArg.spares_iff before).mp
          (spared c t other rfl holds pending asleep eq before)
        rw [Function.update_self, after] at met
        cases met
      · rw [Function.update_of_ne eq, before] at met
        cases met
  | triggered running plain => cases plain
  | refused running tested =>
    obtain ⟨-, rfl⟩ := conditionEventFlags_false (flagsSystem_tested.mp tested)
    exact .inr ((h.stuck asleep met).idle running.idle)
  | failed running => exact .inr ((h.stuck asleep met).idle running.idle)
  | @park c world running tested linked =>
    obtain ⟨unmet, rfl⟩ := conditionEventFlags_false (flagsSystem_tested.mp tested)
    dsimp only at asleep
    by_cases eq : t = v.self
    · rw [eq, Function.update_self] at asleep
      cases asleep
      rw [unmet] at met
      cases met
    · rw [Function.update_of_ne eq] at asleep
      exact h.stuck asleep met
  | @finish c ret phase =>
    have same : (c.finish v.self ret v.world).flags = v.world.flags := by
      rw [FlagsConditionArg.finish]
      split <;> rfl
    change other.met ((c.finish v.self ret v.world).flags other.ef) = true at met
    rw [same] at met
    rcases h.stuck asleep met with acting | calls
    · cases phase.symm.trans acting
    · exact .inr calls
  | @act a sleeping from_ woken =>
    obtain ⟨before, out, -⟩ := h.queued.woken woken asleep
    rcases act_flags v.world a other.ef with same | rest
    · change other.met ((v.world.act a).world.flags other.ef) = true at met
      rw [same] at met
      rcases h.stuck before met with acting | calls
      · rcases from_ with ⟨idle, -⟩ | at_
        · cases idle.symm.trans acting
        · cases at_.symm.trans acting
          exact absurd (h.queued t other before) out
      · exact .inr calls
    · left
      change View.resting (v.world.act a).rest = _
      rw [rest]
      rfl
  | @interrupt a calls sleeping from_ woken =>
    obtain ⟨before, out, -⟩ := h.queued.woken woken asleep
    rcases act_flags v.world a other.ef with same | rest
    · change other.met ((v.world.act a).world.flags other.ef) = true at met
      rw [same] at met
      rcases h.stuck before met with acting | pending
      · exact .inl acting
      · right
        apply List.mem_append_left
        rcases from_ with ⟨-, rfl⟩ | ⟨j, at_, rfl⟩
        · exact pending
        · obtain ⟨k, isAt⟩ := List.mem_iff_getElem?.mp pending
          refine List.mem_eraseIdx_iff_getElem?.mpr ⟨k, ?_, isAt⟩
          rintro rfl
          cases at_.symm.trans isAt
          exact absurd (h.queued t other before) out
    · right
      apply List.mem_append_right
      change _ ∈ (v.world.act a).rest.toList
      rw [rest]
      exact List.mem_singleton_self _
  | signal woken => exact h.stuck (h.queued.woken woken asleep).1 met
  | _ => exact h.stuck asleep met

/-- In a run in which every wait whose condition is met spares the tasks that sleep there, nobody
sleeps in a wait whose condition is met, unless a call that has changed the flags is about to
notify. -/
theorem ehEventFlags_parked_unmet (n : Nat) (main : T)
    (ls : List (Label T O P (FlagsConditionArg O w) (FlagsCall O w)))
    (s : Eh T O P (EventFlags T O w) (FlagsConditionArg O w) (FlagsCall O w))
    (run : Run (Sparing n) (Eh.init main EventFlags.create) ls s)
    (t : T) (c : FlagsConditionArg O w) (live : s.alive t = true)
    (asleep : s.sched.state t = .wait) (waits : (s.point t).waitsOn = some c)
    (quiet : ¬ Notifying s.view c.ef) : c.met (s.world.flags c.ef) = false := by
  have parked : FlagsParked n s.view := by
    refine Eh.view_of_run run (fun step => step.1) ?_ ?_ ?_
    · intro s l s' i step ok one tested
      refine ok.step one fun c t other eq met quiet => ?_
      exact step.2 c t other (tested c eq) met quiet
    · intro s s' p o _ ok
      exact ⟨ok.queued.watch, ok.stuck⟩
    · exact ⟨fun t c eq => (nomatch eq), fun eq => (nomatch eq)⟩
  have sleeping : s.view.sleeping t = some c := by simp [Eh.view, live, asleep, waits]
  rw [← Bool.not_eq_true]
  exact fun met => quiet (parked.stuck sleeping met)

omit [DecidableEq T] [DecidableEq O] [DecidableEq P] in
theorem not_notifying
    {s : Eh T O P (EventFlags T O w) (FlagsConditionArg O w) (FlagsCall O w)} {o : O}
    (user : s.point s.self = .user) (calls : s.calls = []) : ¬ Notifying s.view o := by
  rintro (acting | pending)
  · change (s.point s.self).phase = _ at acting
    rw [user] at acting
    cases acting
  · change _ ∈ s.calls at pending
    rw [calls] at pending
    cases pending

/-- The steps at which no wait that succeeds changes what another one waits for. -/
def sparingStep
    (s : Eh Bool Unit Unit (EventFlags Bool Unit 8) (FlagsConditionArg Unit 8) (FlagsCall Unit 8))
    (l : Label Bool Unit Unit (FlagsConditionArg Unit 8) (FlagsCall Unit 8)) :
    Option (Eh Bool Unit Unit (EventFlags Bool Unit 8) (FlagsConditionArg Unit 8)
      (FlagsCall Unit 8)) :=
  if ∀ t, ∀ c ∈ s.tests l, ∀ other ∈ s.view.sleeping t, c.met (s.world.flags c.ef) = true →
      other.met (s.world.flags c.ef) = false →
      other.met (c.change (s.world.flags c.ef)) = false then
    s.step (flagsSystem Bool Unit 8 4) l
  else none

/-- A task waits for bit 0, main sets bit 2, which wakes it up for nothing, and then waits for this
bit and clears it. -/
def otherBit : List (Label Bool Unit Unit (FlagsConditionArg Unit 8) (FlagsCall Unit 8)) :=
  [Label.thenGo (.create true false false) 0, Label.thenGo .yield 4,
    Label.thenGo (.wait ⟨.object (ehEventFlagsWaitBitsSet () 1 1 true), ehTimeForever⟩) 6,
    Label.thenGo (.act (.ehEventFlagsSetBitsChangeNotify () 4)) 2, Label.thenGo .yield 7,
    Label.thenGo (.wait ⟨.object (ehEventFlagsWaitBitsSet () 4 4 false), ehTimeForever⟩) 1].flatten

theorem otherBit_runs :
    (otherBit.foldlM sparingStep (Eh.init false EventFlags.create)).isSome = true := by
  decide +kernel

theorem otherBit_asleep :
    let s := (otherBit.foldlM sparingStep (Eh.init false EventFlags.create)).get otherBit_runs
    s.alive true = true ∧ s.sched.state true = .wait ∧
      (s.point true).waitsOn = some (ehEventFlagsWaitBitsSet () 1 1 true) ∧
      s.point s.self = .user ∧ s.calls = [] ∧ s.self = false ∧ s.world.flags () = 0 := by
  decide +kernel

theorem ehEventFlags_parked_unmet_other :
    ∃ s : Eh Bool Unit Unit (EventFlags Bool Unit 8) (FlagsConditionArg Unit 8)
        (FlagsCall Unit 8),
      s.self = false ∧ s.sched.state true = .wait ∧ s.world.flags () = 0 ∧
        (ehEventFlagsWaitBitsSet () 1 1 true).met (s.world.flags ()) = false := by
  have run := Run.of_foldlM_some (Option.some_get otherBit_runs).symm
  obtain ⟨live, asleep, waits, user, calls, main, clear⟩ := otherBit_asleep
  refine ⟨_, main, asleep, clear, ehEventFlags_parked_unmet 4 false otherBit _ (run.imp ?_)
    true _ live asleep waits (not_notifying user calls)⟩
  intro s l t step
  rw [sparingStep] at step
  split at step
  · next spared =>
    refine ⟨step, fun c t other tests met _ asleep _ unmet => ?_⟩
    exact (FlagsConditionArg.spares_iff unmet).mpr (spared t c tests other asleep met unmet)
  · cases step

/-- Main sets a bit, task 1 waits until it is clear, and main waits for the bit and clears it. -/
def clearedUnseen : List (Label Nat Unit Unit (FlagsConditionArg Unit 8) (FlagsCall Unit 8)) :=
  [Label.thenGo (.act (.ehEventFlagsSetBitsChangeNotify () 1)) 2,
    Label.thenGo (.create 1 false false) 0, Label.thenGo .yield 4,
    Label.thenGo (.wait ⟨.object (ehEventFlagsWaitBitsClean () 1 0 false), ehTimeForever⟩) 6,
    Label.thenGo (.wait ⟨.object (ehEventFlagsWaitBitsSet () 1 1 false), ehTimeForever⟩) 1].flatten

theorem clearedUnseen_runs :
    (Eh.runs (flagsSystem Nat Unit 8 4) 0 EventFlags.create clearedUnseen).isSome = true := by
  decide +kernel

theorem clearedUnseen_asleep :
    let s := (Eh.runs (flagsSystem Nat Unit 8 4) 0 EventFlags.create clearedUnseen).get
      clearedUnseen_runs
    s.alive 1 = true ∧ s.sched.state 1 = .wait ∧
      (s.point 1).waitsOn = some (ehEventFlagsWaitBitsClean () 1 0 false) ∧
      s.point s.self = .user ∧ s.calls = [] ∧
      (ehEventFlagsWaitBitsClean () 1 0 false).met (s.world.flags ()) = true := by
  decide +kernel

/-- Nobody notifies task 1, whose bit is clear. -/
theorem ehEventFlags_parked_met :
    ¬ ∀ (s : Eh Nat Unit Unit (EventFlags Nat Unit 8) (FlagsConditionArg Unit 8)
        (FlagsCall Unit 8)) (t : Nat) (c : FlagsConditionArg Unit 8),
      s.Reachable (flagsSystem Nat Unit 8 4) 0 EventFlags.create → s.alive t = true →
      s.sched.state t = .wait → (s.point t).waitsOn = some c → ¬ Notifying s.view c.ef →
      c.met (s.world.flags c.ef) = false := by
  intro claim
  obtain ⟨live, asleep, waits, user, calls, met⟩ := clearedUnseen_asleep
  have unmet := claim _ 1 _ (Eh.reachable_get clearedUnseen_runs) live asleep waits
    (not_notifying user calls)
  cases met.symm.trans unmet

end EventHub.Sync
