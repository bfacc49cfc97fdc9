import EventHub.EventCb.Runs
import EventHub.Library.Drain

/-! The dispatch of one trigger. The slots in its `cb_head` wait for their calls, while slot
functions connect and disconnect slots. -/

namespace EventHub.EventCb
open Library Kernel Event

variable {T E S A : Type}

section Calls
variable [DecidableEq T]

def SlotLayer.called (t : T) (L : SlotLayer T E S A) : SlotLabel T E S A → Option S
  | .next u =>
    if u = t then (L.dispatching t).bind fun a => (L.cbNodes.list (.cbHead a)).head? else none
  | _ => none

/-- The slots called in the first `n` steps. -/
def calls (t : T) (σ : ℕ → SlotLayer T E S A) (labels : ℕ → SlotLabel T E S A) (n : ℕ) : List S :=
  takenBefore (fun i => (σ i).called t (labels i)) n

end Calls

/-- The dispatch has not ended before the step `n`. -/
def During (t : T) (a : A) (σ : ℕ → SlotLayer T E S A) (n : ℕ) : Prop :=
  ∀ i ≤ n, (σ i).dispatching t = some a

/-- The slot is connected to the trigger in the step `n` of its dispatch. -/
def Joins (t : T) (a : A) (σ : ℕ → SlotLayer T E S A) (labels : ℕ → SlotLabel T E S A) (n : ℕ)
    (s : S) : Prop :=
  During t a σ n ∧ ∃ e u mem, labels n = .connect e s u mem ∧ (σ n).receptor u e = some (some a)

variable [DecidableEq T] [DecidableEq E] [DecidableEq S] [DecidableEq A]

/-- The loop of the task comes to the trigger, and goes on whenever a slot function returns,
which every slot function does. -/
structure Dispatch (taskEvent : T → E) (t : T) (a : A) (σ : ℕ → SlotLayer T E S A)
    (labels : ℕ → SlotLabel T E S A) : Prop where
  reached : ∃ ls L l, Run (SlotLayer.SoundStep taskEvent) SlotLayer.init ls L ∧
    L.dispatching t ≠ some a ∧ L.SoundStep taskEvent l (σ 0)
  here : (σ 0).dispatching t = some a
  step : ∀ n, (σ n).SoundStep taskEvent (labels n) (σ (n + 1))
  returns : ∀ n, During t a σ n → ∃ m ≥ n, labels m = .next t

variable {L L' : SlotLayer T E S A} {taskEvent : T → E} {owner : A → Option (T × E)}
  {pinner : A → Option T} {t : T} {a : A} {s : S} {l : SlotLabel T E S A}
  {σ : ℕ → SlotLayer T E S A} {labels : ℕ → SlotLabel T E S A}

/-! One step. -/

omit [DecidableEq E] [DecidableEq S] [DecidableEq A] in
theorem called_eq_some (calls : L.called t l = some s) : l = .next t ∧
    ∃ a, L.dispatching t = some a ∧ (L.cbNodes.list (.cbHead a)).head? = some s := by
  cases l with
  | next u =>
    rw [SlotLayer.called] at calls
    split at calls
    · next same =>
      obtain ⟨a, here, first⟩ := Option.bind_eq_some_iff.mp calls
      exact ⟨by rw [same], a, here, first⟩
    · cases calls
  | _ => cases calls

omit [DecidableEq E] [DecidableEq S] [DecidableEq A] in
theorem called_next (here : L.dispatching t = some a) :
    L.called t (.next t) = (L.cbNodes.list (.cbHead a)).head? := by
  rw [SlotLayer.called, if_pos rfl, here]
  rfl

theorem call_step (h : Holds taskEvent L owner pinner) (here : L.dispatching t = some a)
    (first : (L.cbNodes.list (.cbHead a)).head? = some s)
    (step : L.SoundStep taskEvent (.next t) L') :
    L'.loop = L.loop ∧ L'.cbNodes.home s = some (.usedTmpList a) := by
  obtain ⟨g, trigger⟩ := h.trigger_of_pinner (h.pinner_of_dispatching here)
  obtain ⟨l, eq⟩ := List.head?_eq_some_iff.mp first
  have made : L.nextSlot t = some L' := step.2.2
  cases made.symm.trans (nextSlot_call here trigger eq)
  exact ⟨rfl, Function.update_self ..⟩

theorem dispatching_step (h : Holds taskEvent L owner pinner) (here : L.dispatching t = some a)
    (goes : ¬ (l = .next t ∧ L.cbNodes.list (.cbHead a) = []))
    (step : L.SoundStep taskEvent l L') : L'.dispatching t = some a := by
  have same : L'.loop t = L.loop t := by
    by_cases next : l = .next t
    · subst next
      cases first : L.cbNodes.list (.cbHead a) with
      | nil => exact absurd ⟨rfl, first⟩ goes
      | cons s rest => rw [(call_step h here (by rw [first]; rfl) step).1]
    · refine (SoundStep.effect h step).loop (fun wait => ?_) next
      subst wait
      rw [SlotLayer.dispatching, step.1.2] at here
      cases here
  rw [SlotLayer.dispatching, same]
  exact here

theorem waits_before (h : Holds taskEvent L owner pinner) (here : L.dispatching t = some a)
    (goes : ¬ (l = .next t ∧ L.cbNodes.list (.cbHead a) = []))
    (step : L.SoundStep taskEvent l L') (waits : L'.cbNodes.home s = some (.cbHead a)) :
    L.cbNodes.home s = some (.cbHead a) ∨
      ∃ e u mem, l = .connect e s u mem ∧ L.receptor u e = some (some a) := by
  have pinned := h.pinner_of_dispatching here
  cases (SoundStep.effect h step).moved s with
  | stays same => exact .inl (same.symm.trans waits)
  | unlinked gone =>
    rw [gone] at waits
    cases waits
  | connected _ home known =>
    cases home.symm.trans waits
    refine .inr ⟨_, _, _, rfl, known.resolve_right fun dead => ?_⟩
    obtain ⟨g, trigger⟩ := h.trigger_of_pinner pinned
    rw [dead] at trigger
    cases trigger
  | called _ _ _ home => cases home.symm.trans waits
  | restored there empty _ home =>
    cases home.symm.trans waits
    cases pinned.symm.trans (h.pinner_of_dispatching there)
    exact absurd ⟨rfl, empty⟩ goes

theorem waits_after (h : Holds taskEvent L owner pinner) (here : L.dispatching t = some a)
    (step : L.SoundStep taskEvent l L') (waits : L.cbNodes.home s = some (.cbHead a)) :
    L'.cbNodes.home s = some (.cbHead a) ∨ L.called t l = some s ∨ L'.cbNodes.home s = none := by
  cases (SoundStep.effect h step).moved s with
  | stays same => exact .inl (same.trans waits)
  | unlinked gone => exact .inr (.inr gone)
  | connected out => rw [out] at waits; cases waits
  | called there first home =>
    cases home.symm.trans waits
    cases (h.pinner_of_dispatching here).symm.trans (h.pinner_of_dispatching there)
    exact .inr (.inl ((called_next here).trans first))
  | restored _ _ home => rw [home] at waits; cases waits

theorem idle_of_comes (h : Holds taskEvent L owner pinner) (before : L.dispatching t ≠ some a)
    (step : L.SoundStep taskEvent l L') (here : L'.dispatching t = some a) :
    L'.cbNodes.list (.usedTmpList a) = [] := by
  have effect := SoundStep.effect h step
  obtain ⟨owner', pinner', h'⟩ := effect.holds
  have comes : l = .wait t ∨ l = .next t := by
    by_contra other
    rw [not_or] at other
    rw [SlotLayer.dispatching, effect.loop other.1 other.2] at here
    exact before here
  by_contra called
  obtain ⟨s, mem⟩ := List.exists_mem_of_ne_nil _ called
  have home := h'.proper.mem.mp mem
  have elsewhere : ∀ u, L.dispatching u = some a → l ≠ .next u := by
    rintro u there rfl
    rcases comes with eq | eq
    · cases eq
    · cases eq
      exact before there
  cases effect.moved s with
  | stays same =>
    -- the loop of another task has called the slot, and still deals with the trigger
    obtain ⟨u, -, there⟩ := (h.ok a).used
      (List.ne_nil_of_mem (h.proper.mem.mpr (same.symm.trans home)))
    have goes : ¬ (l = .next u ∧ L.cbNodes.list (.cbHead a) = []) := fun ends =>
      elsewhere u there ends.1
    have pinned := h'.pinner_of_dispatching (dispatching_step h there goes step)
    cases pinned.symm.trans (h'.pinner_of_dispatching here)
    exact before there
  | unlinked gone => rw [gone] at home; cases home
  | connected _ linked => cases linked.symm.trans home
  | called there _ _ linked =>
    cases linked.symm.trans home
    exact elsewhere _ there rfl
  | restored _ _ _ linked => cases linked.symm.trans home

theorem end_step (h : Holds taskEvent L owner pinner) (here : L.dispatching t = some a)
    (empty : L.cbNodes.list (.cbHead a) = []) (step : L.SoundStep taskEvent (.next t) L') :
    L'.dispatching t ≠ some a := by
  obtain ⟨x, rest, loop, data⟩ := loop_of_dispatching here
  obtain ⟨g, trigger⟩ := h.trigger_of_pinner (h.pinner_of_dispatching here)
  obtain ⟨L₁, release, holds⟩ := h.finish loop data empty
  have made : L.nextSlot t = some L' := step.2.2
  cases made.symm.trans (nextSlot_finish loop data trigger empty release)
  intro again
  have pinned := holds.pinner_of_dispatching again
  rw [Function.update_self] at pinned
  cases pinned

/-! The whole dispatch. -/

namespace Dispatch
variable (d : Dispatch taskEvent t a σ labels)
include d

theorem holds (n : ℕ) : ∃ owner pinner, Holds taskEvent (σ n) owner pinner := by
  induction n with
  | zero =>
    obtain ⟨ls, L, l, run, -, step⟩ := d.reached
    exact SoundStep.run (run.snoc step) ⟨_, _, holds_init taskEvent⟩
  | succ n ih =>
    obtain ⟨owner, pinner, h⟩ := ih
    exact (SoundStep.effect h (d.step n)).holds

theorem slots_start : (σ 0).slots a = (σ 0).cbNodes.list (.cbHead a) := by
  obtain ⟨ls, L, l, run, before, step⟩ := d.reached
  obtain ⟨owner, pinner, h⟩ := SoundStep.run run ⟨_, _, holds_init taskEvent⟩
  rw [SlotLayer.slots, idle_of_comes h before step d.here, List.append_nil]

theorem during {n : ℕ}
    (goes : ∀ i < n, ¬ (labels i = .next t ∧ (σ i).cbNodes.list (.cbHead a) = [])) :
    During t a σ n := by
  intro i le
  induction i with
  | zero => exact d.here
  | succ i ih =>
    obtain ⟨owner, pinner, h⟩ := d.holds i
    exact dispatching_step h (ih (Nat.le_of_succ_le le)) (goes i le) (d.step i)

theorem draining (again : ∀ n s, Joins t a σ labels n s → s ∉ calls t σ labels n) {n : ℕ}
    (goes : ∀ i < n, ¬ (labels i = .next t ∧ (σ i).cbNodes.list (.cbHead a) = [])) :
    Draining (fun i => {s | (σ i).cbNodes.home s = some (.cbHead a)})
      (fun i => (σ i).called t (labels i)) n := by
  have during := d.during goes
  refine ⟨fun i lt s calls => ?_, fun i lt s waits => ?_⟩
  · obtain ⟨owner, pinner, h⟩ := d.holds i
    obtain ⟨next, b, here, first⟩ := called_eq_some calls
    cases (during i lt.le).symm.trans here
    refine ⟨h.proper.mem.mp (List.mem_of_mem_head? first), ?_⟩
    have step := d.step i
    rw [next] at step
    have used := (call_step h here first step).2
    intro waits
    cases used.symm.trans waits
  · obtain ⟨owner, pinner, h⟩ := d.holds i
    rcases waits_before h (during i lt.le) (goes i lt) (d.step i) waits with before | joins
    · exact .inl before
    · refine .inr fun j le called => ?_
      have out := again i s ⟨fun k le => during k (le.trans lt.le), joins⟩
      obtain ⟨e, u, mem, label, -⟩ := joins
      rcases Nat.lt_or_eq_of_le le with earlier | rfl
      · exact out (mem_takenBefore.mpr ⟨j, earlier, called⟩)
      · rw [label] at called
        cases called

theorem waits_from
    (goes : ∀ i, ¬ (labels i = .next t ∧ (σ i).cbNodes.list (.cbHead a) = [])) {n : ℕ}
    (waits : (σ n).cbNodes.home s = some (.cbHead a)) :
    s ∈ (σ 0).slots a ∨ ∃ i, Joins t a σ labels i s := by
  induction n with
  | zero =>
    obtain ⟨owner, pinner, h⟩ := d.holds 0
    rw [d.slots_start]
    exact .inl (h.proper.mem.mpr waits)
  | succ n ih =>
    obtain ⟨owner, pinner, h⟩ := d.holds n
    have during : During t a σ n := d.during fun i _ => goes i
    rcases waits_before h (during n le_rfl) (goes n) (d.step n) waits with before | joins
    · exact ih before
    · exact .inr ⟨n, during, joins⟩

theorem ends (again : ∀ n s, Joins t a σ labels n s → s ∉ calls t σ labels n)
    (finite : {s | ∃ n, Joins t a σ labels n s}.Finite) :
    ∃ n, labels n = .next t ∧ (σ n).cbNodes.list (.cbHead a) = [] := by
  by_contra never
  rw [not_exists] at never
  have few : (⋃ i, {s | (σ i).cbNodes.home s = some (.cbHead a)}).Finite := by
    refine ((List.finite_toSet ((σ 0).slots a)).union finite).subset fun s mem => ?_
    obtain ⟨i, waits⟩ := Set.mem_iUnion.mp mem
    exact d.waits_from never waits
  obtain ⟨n, none_⟩ := Draining.ends (fun n => d.draining again fun i _ => never i) few
  obtain ⟨m, ge, next⟩ := d.returns n (d.during fun i _ => never i)
  have nobody := none_ m ge
  rw [next, called_next (d.during (fun i _ => never i) m le_rfl), List.head?_eq_none_iff] at nobody
  exact never m ⟨next, nobody⟩

end Dispatch

/-- Where no slot that was called is connected to the trigger again, and only finitely many are
connected to it, its dispatch ends, and calls each slot once. -/
theorem ehEventLoop_calls_once (d : Dispatch taskEvent t a σ labels)
    (again : ∀ n s, Joins t a σ labels n s → s ∉ calls t σ labels n)
    (finite : {s | ∃ n, Joins t a σ labels n s}.Finite) :
    ∃ n, During t a σ n ∧ labels n = .next t ∧ (σ (n + 1)).dispatching t ≠ some a ∧
      (calls t σ labels (n + 1)).Nodup ∧
      ∀ s ∈ (σ 0).slots a,
        (∀ i ≤ n, (σ i).cbNodes.home s = none → s ∈ calls t σ labels i) →
          (calls t σ labels (n + 1)).count s = 1 := by
  classical
  have ends := d.ends again finite
  obtain ⟨next, empty⟩ := Nat.find_spec ends
  have goes : ∀ i < Nat.find ends, ¬ (labels i = .next t ∧
      (σ i).cbNodes.list (.cbHead a) = []) := fun i => Nat.find_min ends
  generalize Nat.find ends = n at next empty goes
  have during := d.during goes
  have draining := d.draining again goes
  obtain ⟨owner, pinner, h⟩ := d.holds n
  have step := d.step n
  rw [next] at step
  have last : calls t σ labels (n + 1) = calls t σ labels n := by
    rw [calls, calls, takenBefore_succ, next, called_next (during n le_rfl), empty]
    exact List.append_nil _
  refine ⟨n, during, next, end_step h (during n le_rfl) empty step, last ▸ draining.nodup,
    fun s mem stays => ?_⟩
  rw [last]
  obtain ⟨owner₀, pinner₀, h₀⟩ := d.holds 0
  rw [d.slots_start, h₀.proper.mem] at mem
  refine List.count_eq_one_of_mem draining.nodup (mem_takenBefore_of_stays
    (fun i => {s | (σ i).cbNodes.home s = some (.cbHead a)}) mem (fun i lt waits => ?_)
    fun waits => ?_)
  · obtain ⟨owner', pinner', h'⟩ := d.holds i
    rcases waits_after h' (during i lt.le) (d.step i) waits with still | called | gone
    · exact .inl still
    · exact .inr (mem_takenBefore.mpr ⟨i, i.lt_succ_self, called⟩)
    · exact .inr (stays (i + 1) lt gone)
  · have left := h.proper.mem.mpr waits
    rw [empty] at left
    cases left

def twoSlots : List (SlotLabel Unit Bool Bool Unit) :=
  [.connect true false () ⟨true, true, true, some ()⟩, .connect true true () ⟨true, true, true, none⟩,
    .notify true, .wait ()]

def callLabels : ℕ → SlotLabel Unit Bool Bool Unit
  | 0 | 1 | 2 => .next ()
  | _ + 3 => .notify true

def callStates (L₀ L₁ L₂ L₃ : SlotLayer Unit Bool Bool Unit) : ℕ → SlotLayer Unit Bool Bool Unit
  | 0 => L₀
  | 1 => L₁
  | 2 => L₂
  | n + 3 => (fun L => { L with events := L.events.ehEventNotify true })^[n] L₃

theorem callStates_succ (L₀ L₁ L₂ L₃ : SlotLayer Unit Bool Bool Unit) (n : ℕ) :
    callStates L₀ L₁ L₂ L₃ (n + 4) = { callStates L₀ L₁ L₂ L₃ (n + 3) with
      events := (callStates L₀ L₁ L₂ L₃ (n + 3)).events.ehEventNotify true } :=
  Function.iterate_succ_apply'
    (fun L : SlotLayer Unit Bool Bool Unit => { L with events := L.events.ehEventNotify true }) n L₃

theorem callStates_dispatch : ∃ L₀ L₁ L₂ L₃,
    Dispatch (fun _ => false) () () (callStates L₀ L₁ L₂ L₃) callLabels ∧
      L₀.slots () = [true, false] ∧ ∀ n s, (callStates L₀ L₁ L₂ L₃ n).cbNodes.home s ≠ none := by
  obtain ⟨L, L₀, L₁, L₂, L₃, run, before, wait, here, first, second, ends, finished, slots, home₀,
      home₁, home₂, home₃⟩ : ∃ L L₀ L₁ L₂ L₃ : SlotLayer Unit Bool Bool Unit,
      Run (SlotLayer.SoundStep fun _ => false) SlotLayer.init (twoSlots.take 3) L ∧
      L.dispatching () = none ∧ L.SoundStep (fun _ => false) (.wait ()) L₀ ∧
      L₀.dispatching () = some () ∧ L₀.SoundStep (fun _ => false) (.next ()) L₁ ∧
      L₁.SoundStep (fun _ => false) (.next ()) L₂ ∧ L₂.SoundStep (fun _ => false) (.next ()) L₃ ∧
      L₃.dispatching () = none ∧ L₀.slots () = [true, false] ∧
      (∀ s, L₀.cbNodes.home s ≠ none) ∧ (∀ s, L₁.cbNodes.home s ≠ none) ∧
      (∀ s, L₂.cbNodes.home s ≠ none) ∧ ∀ s, L₃.cbNodes.home s ≠ none := by
    refine ⟨_, _, _, _, _, .cons ⟨fun _ _ => rfl, ⟨fun lacks => ?_, fun a eq => ?_⟩, rfl⟩ <|
      .cons ⟨(fun _ eq => by cases eq), ⟨fun lacks => ?_, fun a eq => ?_⟩, rfl⟩ <|
      .single ⟨trivial, trivial, rfl⟩, rfl, ⟨⟨rfl, rfl⟩, trivial, rfl⟩, rfl, ⟨?_, trivial, rfl⟩,
      ⟨?_, trivial, rfl⟩, ⟨?_, trivial, rfl⟩, rfl, rfl, by decide, by decide, by decide, by decide⟩
    · cases lacks.2.2.2.2.2
    · cases eq
    · cases lacks.2.2.2.1
    · change 2 < 2 ^ 31
      decide
    · exact Option.some_ne_none _
    · exact Option.some_ne_none _
    · exact Option.some_ne_none _
  refine ⟨L₀, L₁, L₂, L₃, ⟨⟨_, L, _, run, by simp [before], wait⟩, here, fun n => ?_,
    fun n during => ?_⟩, slots, fun n => ?_⟩
  · match n with
    | 0 => exact first
    | 1 => exact second
    | 2 => exact ends
    | n + 3 => exact ⟨trivial, trivial, congrArg some (callStates_succ L₀ L₁ L₂ L₃ n).symm⟩
  · match n with
    | 0 => exact ⟨0, le_rfl, rfl⟩
    | 1 => exact ⟨1, le_rfl, rfl⟩
    | 2 => exact ⟨2, le_rfl, rfl⟩
    | n + 3 =>
      have still : L₃.dispatching () = some () := during 3 (Nat.le_add_left 3 n)
      rw [finished] at still
      cases still
  · match n with
    | 0 => exact home₀
    | 1 => exact home₁
    | 2 => exact home₂
    | n + 3 =>
      have kept : (callStates L₀ L₁ L₂ L₃ (n + 3)).cbNodes = L₃.cbNodes := by
        induction n with
        | zero => rfl
        | succ n ih => rw [callStates_succ, ← ih]
      rw [kept]
      exact home₃

theorem ehEventLoop_calls_once_two : ∃ (σ : ℕ → SlotLayer Unit Bool Bool Unit) (n : ℕ),
    (σ 0).slots () = [true, false] ∧ ∀ s, (calls () σ callLabels (n + 1)).count s = 1 := by
  obtain ⟨L₀, L₁, L₂, L₃, d, slots, linked⟩ := callStates_dispatch
  have joins : ∀ n s, ¬ Joins () () (callStates L₀ L₁ L₂ L₃) callLabels n s := by
    rintro n s ⟨-, e, u, mem, label, -⟩
    match n with
    | 0 | 1 | 2 | _ + 3 => cases label
  obtain ⟨n, -, -, -, -, each⟩ := ehEventLoop_calls_once d
    (fun n s joined => absurd joined (joins n s)) (by simp [joins])
  refine ⟨_, n, slots, fun s => each s ?_ fun i _ out => absurd out (linked i s)⟩
  change s ∈ L₀.slots ()
  simp [slots]

/-- The slot function of one disconnects its slot and connects it again. The state is what it was
before the call, and the slot is called again. -/
theorem ehEventLoop_calls_again : ∃ L L₁ L₂,
    Run (SlotLayer.SoundStep fun _ => false) (SlotLayer.init : SlotLayer Unit Bool Bool Unit)
      twoSlots L ∧ L.dispatching () = some () ∧ L.called () (.next ()) = some true ∧
    L.SoundStep (fun _ => false) (.next ()) L₁ ∧
    L₁.SoundStep (fun _ => false) (.disconnect true true) L₂ ∧
    L₂.SoundStep (fun _ => false) (.connect true true () ⟨true, true, true, none⟩) L := by
  refine ⟨_, _, _, .cons ⟨fun _ _ => rfl, ⟨fun lacks => ?_, fun a eq => ?_⟩, rfl⟩ <|
    .cons ⟨(fun _ eq => by cases eq), ⟨fun lacks => ?_, fun a eq => ?_⟩, rfl⟩ <|
    .cons ⟨trivial, trivial, rfl⟩ <| .single ⟨⟨rfl, rfl⟩, trivial, rfl⟩, rfl, rfl,
    ⟨?_, trivial, rfl⟩, ⟨trivial, .inr ⟨(), (), rfl, ?_⟩, rfl⟩,
    ⟨(fun _ eq => by cases eq), ⟨fun lacks => ?_, fun a eq => ?_⟩, ?_⟩⟩
  · cases lacks.2.2.2.2.2
  · cases eq
  · cases lacks.2.2.2.1
  · change 2 < 2 ^ 31
    decide
  · exact Option.some_ne_none _
  · exact List.mem_append_right _ (List.mem_singleton_self true)
  · cases lacks.2.2.2.1
  · change 2 < 2 ^ 31
    decide
  · refine congrArg some ?_
    refine SlotLayer.ext rfl ?_ ?_ ?_ (Placing.ext ?_ ?_) ?_ ?_ ?_ ?_
    · funext t
      rfl
    · funext t
      rfl
    · funext a
      rfl
    · funext j
      rcases j with ⟨⟩ | ⟨⟩ <;> rfl
    · funext s
      cases s <;> rfl
    · funext s
      cases s <;> rfl
    · funext t
      rfl
    · funext a
      rfl
    · funext a
      rfl

end EventHub.EventCb
