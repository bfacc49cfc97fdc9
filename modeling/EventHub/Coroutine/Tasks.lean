import EventHub.Coroutine.LinuxX64
import EventHub.Kernel.Flow

/-! The kernel on a processor. The contexts are the `context` fields of the tasks, and
`eh_task_next` ends its turn by `co_context_swap`. -/

namespace EventHub.Coroutine
open Library Kernel

structure Hosted (T O P W C A : Type) (n : Nat) {R : Type} (width : R → Nat) where
  eh : Eh T O P W C A
  cpu : Cpu n width

namespace Hosted
variable {T O P W C A R : Type} {n : Nat} {width : R → Nat} [DecidableEq T]

def threads (x : Hosted T O P W C A n width) : Threads T n width :=
  ⟨x.cpu, x.eh.self, fun t => x.eh.alive t && decide (t ≠ x.eh.self)⟩

variable [DecidableEq O] [DecidableEq P]

/-- A step of the kernel with its code, or code between two steps. The call of
`co_context_swap` belongs to the step that changes the current task. -/
inductive Step (sys : System T O W C A) (c : Convention R) (slot : T → BitVec n)
    (coContextSwap : Cpu n width → Cpu n width) (x : Hosted T O P W C A n width) :
    Option (Label T O P C A) → Hosted T O P W C A n width → Prop
  | work {cpu : Cpu n width} : x.threads.Spares c slot cpu.mem →
      Step sys c slot coContextSwap x none { x with cpu := cpu }
  | kernel {l : Label T O P C A} {eh : Eh T O P W C A} {cpu : Cpu n width} :
      x.eh.step sys l = some eh → eh.self = x.eh.self → x.threads.Spares c slot cpu.mem →
      Step sys c slot coContextSwap x (some l) ⟨eh, cpu⟩
  | swap {l : Label T O P C A} {eh : Eh T O P W C A} : x.eh.step sys l = some eh →
      eh.self ≠ x.eh.self → x.cpu.val c.fromPtr = slot x.eh.self →
      x.cpu.val c.toPtr = slot eh.self → x.threads.Room c slot →
      Step sys c slot coContextSwap x (some l) ⟨eh, coContextSwap x.cpu⟩

end Hosted

section Kernel
variable {T O P W C A : Type} [DecidableEq T] [DecidableEq O] [DecidableEq P]
  {sys : System T O W C A} {s s' : Eh T O P W C A} {l : Label T O P C A} {t : T}

inductive Exists (s : Eh T O P W C A) (l : Label T O P C A) (alive : T → Bool) : Prop
  | same : alive = s.alive → Exists s l alive
  | destroyed (u : T) : s.alive u = true → s.sched.state u = .finish → u ≠ s.self →
      alive = Function.update s.alive u false → Exists s l alive
  | created (u : T) (system auto : Bool) : l = .create u system auto → s.alive u = false →
      alive = Function.update s.alive u true → Exists s l alive

theorem step_exists (inv : Invariant sys s) (step : s.step sys l = some s') :
    Exists s l s'.alive := by
  have sched := Eh.scheduling inv step
  generalize s.turns sys l = ms at sched
  cases sched with
  | still n sched alive => exact .same alive
  | wakes st ts all sched alive => exact .same alive
  | polled empty sched alive => exact .same alive
  | releases u b live finish ne sched empty alive => exact .destroyed u live finish ne alive
  | idles none sched alive => exact .same alive
  | resumes idles sched alive => exact .same alive
  | stays idles sched alive => exact .same alive
  | switches calm holds first sched alive => exact .same alive
  | creates system auto eq dead sched alive => exact .created _ system auto eq dead alive

theorem step_switch (inv : Invariant sys s) (step : s.step sys l = some s')
    (ne : s'.self ≠ s.self) : s'.alive = s.alive ∧ s.alive s'.self = true ∧
      ∃ k, s.point s.self = .nextLoop k ∧ s'.point s.self = .resumed k := by
  obtain ⟨rfl, -, -, k, at_⟩ := (step_self inv step).resolve_left ne
  have alive : s'.alive = s.alive := by
    rw [go_alive inv step, at_]
    rfl
  refine ⟨alive, alive ▸ (inv.step step).sched.live, k, at_, ?_⟩
  change s.go sys = some s' at step
  rw [Eh.go, at_] at step
  dsimp only at step
  rw [Eh.dispatch] at step
  split at step
  · cases step
    exact absurd rfl ne
  · split at step
    · cases step
      exact Function.update_self ..
    · cases step

theorem step_create {system auto : Bool} (inv : Invariant sys s)
    (step : s.step sys (.create t system auto) = some s') :
    s'.alive t = true ∧ s'.self ≠ t ∧ s'.point t = .fresh := by
  cases Eh.step_cases step with
  | user _ step =>
    cases Eh.user_cases step with
    | create _ _ dead =>
      have other : s.self ≠ t := fun eq => by
        have live := inv.sched.live
        rw [eq, dead] at live
        cases live
      have same : (s.create t system auto).self = s.self := Sched.ehTaskCreate_currentTask ..
      exact ⟨Function.update_self .., same ▸ other, Function.update_self ..⟩

/-- A task that waits at `p` for its next turn. -/
structure Parked (sys : System T O W C A) (s : Eh T O P W C A) (t : T) (p : Point T P C A) :
    Prop where
  inv : Invariant sys s
  alive : s.alive t = true
  other : s.self ≠ t
  point : s.point t = p
  unfinished : p ≠ .resumed .finished

omit [DecidableEq T] [DecidableEq O] [DecidableEq P] in
theorem Parked.state {p : Point T P C A} (h : Parked sys s t p) : s.sched.state t ≠ .finish := by
  have admits := h.inv.sched.state h.alive h.other.symm
  have parked := h.inv.sched.parked h.alive h.other.symm
  intro finish
  rw [h.point] at admits parked
  rw [finish] at admits
  cases p with
  | fresh => cases admits
  | resumed k =>
    cases k with
    | yield => cases admits
    | finished => exact h.unfinished rfl
    | wait w => rcases admits with st | st <;> cases st
  | _ => cases parked

theorem Parked.step {p : Point T P C A} (h : Parked sys s t p) (step : s.step sys l = some s') :
    s'.alive t = true ∧ s'.point t = p := by
  have parked := h.inv.sched.parked h.alive h.other.symm
  have busy : s.point t ≠ .user := fun user => by
    rw [user] at parked
    cases parked
  have point := (step_aside h.inv h.alive step (fun _ => h.other.symm) busy).point
  exact ⟨step_alive h.inv step h.alive (.inr h.state), point.trans h.point⟩

end Kernel

namespace Hosted
variable {T O P W C A R : Type} {n : Nat} {width : R → Nat} [DecidableEq T] [DecidableEq O]
  [DecidableEq P] {sys : System T O W C A} {c : Convention R} {slot : T → BitVec n}
  {coContextSwap : Cpu n width → Cpu n width} {x x' y z : Hosted T O P W C A n width}
  {l : Option (Label T O P C A)} {ls : List (Option (Label T O P C A))} {t : T}

omit [DecidableEq O] [DecidableEq P] in
theorem threads_asleep : x.threads.asleep t = true ↔ x.eh.alive t = true ∧ t ≠ x.eh.self := by
  simp [threads]

omit [DecidableEq O] [DecidableEq P] in
theorem threads_congr {cpu : Cpu n width} (eh : x'.eh.self = x.eh.self) (mem : x'.cpu = cpu)
    {alive : T → Bool} (exist : x'.eh.alive = alive) :
    x'.threads = ⟨cpu, x.eh.self, fun t => alive t && decide (t ≠ x.eh.self)⟩ := by
  rw [threads, eh, mem, exist]

theorem Step.switches (inv : Invariant sys x.eh) (step : Step sys c slot coContextSwap x l x')
    (ne : x'.eh.self ≠ x.eh.self) :
    Threads.Step c slot coContextSwap x.threads (.switch x'.eh.self) x'.threads := by
  cases step with
  | work => exact absurd rfl ne
  | kernel _ same => exact absurd same ne
  | @swap l eh step _ fromPtr toPtr room =>
    obtain ⟨alive, live, -⟩ := step_switch inv step ne
    have asleep : Function.update (Function.update x.threads.asleep x.eh.self true) eh.self false =
        fun t => eh.alive t && decide (t ≠ eh.self) := by
      funext t
      rw [alive]
      by_cases here : t = eh.self
      · simp [here]
      · by_cases self : t = x.eh.self
        · simp [self, inv.sched.live, ne.symm]
        · simp [threads, here, self]
    have switch : Threads.Step c slot coContextSwap x.threads (.switch eh.self)
        ⟨coContextSwap x.cpu, eh.self,
          Function.update (Function.update x.threads.asleep x.eh.self true) eh.self false⟩ :=
      .switch (threads_asleep.mpr ⟨live, ne⟩) ne fromPtr toPtr room
    rw [asleep] at switch
    exact switch

theorem Step.stays (inv : Invariant sys x.eh) (step : Step sys c slot coContextSwap x l x')
    (same : x'.eh.self = x.eh.self) :
    ∃ ks, Run (Threads.Step c slot coContextSwap) x.threads ks x'.threads ∧
      ∀ k ∈ ks, ∀ t, k ≠ .switch t ∧ (k = .drop t → x.eh.sched.state t = .finish) := by
  cases step with
  | work spares => exact ⟨_, .single (.work spares), by simp⟩
  | swap _ ne => exact absurd same ne
  | @kernel l eh cpu step _ spares =>
    have live := inv.sched.live
    cases step_exists inv step with
    | same alive =>
      refine ⟨[.work], .single ?_, by simp⟩
      rw [threads_congr same rfl alive]
      exact .work spares
    | destroyed u there finish ne alive =>
      have asleep : Function.update x.threads.asleep u false =
          fun t => Function.update x.eh.alive u false t && decide (t ≠ x.eh.self) := by
        funext t
        by_cases eq : t = u <;> simp [threads, eq]
      have drop : Threads.Step c slot coContextSwap { x.threads with cpu := cpu } (.drop u)
          ⟨cpu, x.eh.self, Function.update x.threads.asleep u false⟩ :=
        .drop (threads_asleep.mpr ⟨there, ne⟩)
      refine ⟨[.work, .drop u], .cons (.work spares) (.single ?_), by simp [finish]⟩
      rw [threads_congr same rfl alive, ← asleep]
      exact drop
    | created u system auto _ dead alive =>
      have ne : u ≠ x.eh.self := fun eq => by simp [← eq, dead] at live
      have asleep : Function.update x.threads.asleep u true =
          fun t => Function.update x.eh.alive u true t && decide (t ≠ x.eh.self) := by
        funext t
        by_cases eq : t = u <;> simp [threads, eq, ne]
      have make : Threads.Step c slot coContextSwap x.threads (.make u)
          ⟨cpu, x.eh.self, Function.update x.threads.asleep u true⟩ :=
        .make (by simp [threads, dead]) ne spares
      refine ⟨[.make u], .single ?_, by simp⟩
      rw [threads_congr same rfl alive, ← asleep]
      exact make

theorem Step.eh (step : Step sys c slot coContextSwap x l x') :
    match l with
    | none => x'.eh = x.eh
    | some l => x.eh.step sys l = some x'.eh := by
  cases step with
  | work => rfl
  | kernel step => exact step
  | swap step => exact step

theorem Step.changes (step : Step sys c slot coContextSwap x l x')
    (ne : x'.eh.self ≠ x.eh.self) : ∃ l, x.eh.step sys l = some x'.eh := by
  cases l with
  | none => exact absurd (congrArg Eh.self step.eh) ne
  | some l => exact ⟨l, step.eh⟩

theorem Step.parked {p : Point T P C A} (step : Step sys c slot coContextSwap x l x')
    (parked : Parked sys x.eh t p) (other : x'.eh.self ≠ t) : Parked sys x'.eh t p := by
  cases l with
  | none => exact step.eh ▸ parked
  | some l =>
    obtain ⟨alive, point⟩ := parked.step step.eh
    exact ⟨parked.inv.step step.eh, alive, other, point, parked.unfinished⟩

theorem parked_run {p : Point T P C A} (parked : Parked sys x.eh t p)
    (run : Run (fun a l b => Step sys c slot coContextSwap a l b ∧ b.eh.self ≠ t) x ls y) :
    Parked sys y.eh t p ∧ ∃ ks, Run (Threads.Step c slot coContextSwap) x.threads ks y.threads ∧
      .switch t ∉ ks ∧ .drop t ∉ ks := by
  induction run with
  | nil => exact ⟨parked, [], .nil _, by simp, by simp⟩
  | @snoc y z l ls _ last ih =>
    obtain ⟨before, ks, run, awake, kept⟩ := ih
    obtain ⟨step, other⟩ := last
    refine ⟨step.parked before other, ?_⟩
    by_cases same : z.eh.self = y.eh.self
    · obtain ⟨ks', run', steps⟩ := step.stays before.inv same
      refine ⟨ks ++ ks', run.append run', ?_, ?_⟩
      · simp only [List.mem_append, not_or]
        exact ⟨awake, fun mem => (steps _ mem t).1 rfl⟩
      · simp only [List.mem_append, not_or]
        exact ⟨kept, fun mem => before.state ((steps _ mem t).2 rfl)⟩
    · refine ⟨_, run.snoc (step.switches before.inv same), ?_, ?_⟩
      · simpa [awake] using other.symm
      · simpa using kept

/-- `eh_task_next` gives the processor to other tasks and, for a task that has not finished,
returns: where the kernel gives the task its next turn, it goes on behind its call of
`co_context_swap` with the registers that it made the call with. -/
theorem ehTaskNext_returns (swaps : ∀ s : Cpu n width, c.Switched s (coContextSwap s))
    (fit : c.Fit n width) {main : T} {world : W} (reach : x.eh.Reachable sys main world)
    (unfinished : x.eh.sched.state x.eh.self ≠ .finish)
    (leave : Step sys c slot coContextSwap x l x') (away : x'.eh.self ≠ x.eh.self)
    (run : Run (fun a l b => Step sys c slot coContextSwap a l b ∧ b.eh.self ≠ x.eh.self) x' ls y)
    {l' : Option (Label T O P C A)} (enter : Step sys c slot coContextSwap y l' z)
    (back : z.eh.self = x.eh.self) :
    (∃ k, x.eh.point x.eh.self = .nextLoop k ∧ z.eh.point x.eh.self = .resumed k) ∧
    (∀ s ∈ c.kept, z.cpu.regs s.1 = x.cpu.regs s.1) ∧
    z.cpu.val c.pc = x.cpu.val c.link ∧ z.cpu.val c.sp = x.cpu.val c.sp ∧
    z.cpu.val c.result = y.cpu.val c.arg := by
  have inv := reach.invariant
  obtain ⟨l₀, step⟩ := leave.changes away
  obtain ⟨alive, live, k, at_, after⟩ := step_switch inv step away
  have kind : (.resumed k : Point T P C A) ≠ .resumed .finished := by
    rintro ⟨⟩
    have admits := inv.sched.selfState
    rw [at_] at admits
    exact unfinished admits
  have parked : Parked sys x'.eh x.eh.self (.resumed k) :=
    ⟨inv.step step, alive ▸ inv.sched.live, away, after, kind⟩
  obtain ⟨before, ks, threads, awake, kept⟩ := parked_run parked run
  have last : z.eh.self ≠ y.eh.self := fun eq => before.other (eq.symm.trans back)
  have first := leave.switches inv away
  have again := enter.switches before.inv last
  rw [back] at again
  obtain ⟨l₁, step⟩ := enter.changes last
  exact ⟨⟨k, at_, (before.step step).2⟩, Threads.resumes swaps fit first threads awake kept again⟩

/-- A task starts where its first turn comes, with the registers that its creation has put into
the frame of its context. -/
theorem ehTaskCreate_starts (swaps : ∀ s : Cpu n width, c.Switched s (coContextSwap s))
    (fit : c.Fit n width) {main : T} {world : W} (reach : x.eh.Reachable sys main world)
    {system auto : Bool}
    (create : Step sys c slot coContextSwap x (some (.create t system auto)) x')
    (run : Run (fun a l b => Step sys c slot coContextSwap a l b ∧ b.eh.self ≠ t) x' ls y)
    {l' : Option (Label T O P C A)} (enter : Step sys c slot coContextSwap y l' z)
    (turn : z.eh.self = t) :
    z.eh.point t = .fresh ∧
    (∀ s ∈ c.kept, z.cpu.regs s.1 = x'.cpu.mem.read
      (c.context x'.cpu.mem (slot t) + BitVec.ofNat n s.2) (width s.1)) ∧
    z.cpu.val c.pc = (x'.cpu.mem.read
      (c.context x'.cpu.mem (slot t) + BitVec.ofNat n c.linkOffset) (width c.link)).setWidth n ∧
    z.cpu.val c.sp = c.context x'.cpu.mem (slot t) + BitVec.ofNat n c.size := by
  have inv := reach.invariant
  have parked : Parked sys x'.eh t .fresh := by
    obtain ⟨alive, other, point⟩ := step_create inv create.eh
    exact ⟨inv.step create.eh, alive, other, point, by simp⟩
  obtain ⟨before, ks, threads, awake, kept⟩ := parked_run parked run
  have last : z.eh.self ≠ y.eh.self := fun eq => before.other (eq.symm.trans turn)
  have again := enter.switches before.inv last
  rw [turn] at again
  obtain ⟨l₁, step⟩ := enter.changes last
  have asleep := threads_asleep.mpr ⟨parked.alive, parked.other.symm⟩
  obtain ⟨regs, pc, sp, -⟩ := Threads.woken swaps fit threads asleep awake kept again
  exact ⟨(before.step step).2, regs, pc, sp⟩

def quiet (sys : System T O W C A) (s : Eh T O P W C A) (l : Label T O P C A) :
    Option (Eh T O P W C A) :=
  (s.step sys l).filter fun s' => s'.self = s.self

theorem quiet_run (c : Convention R) (slot : T → BitVec n)
    (coContextSwap : Cpu n width → Cpu n width) (cpu : Cpu n width) {s s' : Eh T O P W C A}
    {ls : List (Label T O P C A)} (steps : ls.foldlM (quiet sys) s = some s') (other : s.self ≠ t) :
    Run (fun a l b => Step sys c slot coContextSwap a l b ∧ b.eh.self ≠ t) ⟨s, cpu⟩ (ls.map some)
      ⟨s', cpu⟩ ∧ s'.self = s.self := by
  induction ls generalizing s with
  | nil =>
    cases steps
    exact ⟨.nil _, rfl⟩
  | cons l ls ih =>
    rw [List.foldlM_cons] at steps
    obtain ⟨mid, first, later⟩ := Option.bind_eq_some_iff.mp steps
    obtain ⟨step, same⟩ := Option.filter_eq_some_iff.mp first
    have same : mid.self = s.self := of_decide_eq_true same
    obtain ⟨rest, on⟩ := ih later (same ▸ other)
    exact ⟨.cons ⟨.kernel step same fun _ _ _ _ => rfl, same ▸ other⟩ rest, on.trans same⟩

end Hosted

section Example
open LinuxX64 Hosted

def created : Eh Nat Unit Unit Unit Unit Empty :=
  ((Eh.init 0 ()).step plain (.create 1 false false)).get rfl

def beforeFirst : Eh Nat Unit Unit Unit Unit Empty :=
  ((Eh.runs plain 0 () [.create 1 false false, .yield, .go, .go]).get rfl)

def afterFirst : Eh Nat Unit Unit Unit Unit Empty := (beforeFirst.step plain .go).get rfl

theorem created_steps : [.yield, .go, .go].foldlM (quiet plain) created = some beforeFirst := rfl

def beforeSecond : Eh Nat Unit Unit Unit Unit Empty :=
  ([.go, .yield, .go, .go].foldlM (quiet plain) afterFirst).get rfl

theorem afterFirst_steps :
    [.go, .yield, .go, .go].foldlM (quiet plain) afterFirst = some beforeSecond :=
  (Option.some_get _).symm

def afterSecond : Eh Nat Unit Unit Unit Unit Empty := (beforeSecond.step plain .go).get rfl

def firstSlot (t : Nat) : BitVec 64 := if t = 0 then 0x1000 else 0x2000

theorem ehTaskNext_returns_yield : ∃ x y z : Hosted Nat Unit Unit Unit Unit Empty 64 Reg.width,
    x.eh = beforeFirst ∧ z.eh = afterSecond ∧ z.cpu.val .rsp = x.cpu.val .rsp ∧
      z.cpu.val .rip = x.cpu.val .rip ∧ z.cpu.val .rax = y.cpu.val .rdi := by
  have apart : Threads.Apart convention 0x1000 0x2000 0x8000 (0 : BitVec 64) := by decide
  have fit := convention_fit
  have slots : ∀ t, t ≠ 0 → firstSlot t = 0x2000 := fun t ne => if_neg ne
  let cpu : Cpu 64 Reg.width := convention.ready (fun _ => 0) (0x8000 + BitVec.ofNat 64 0x40)
    0x1000 0x2000
  obtain ⟨sp, fromPtr, toPtr⟩ := fit.ready_val (fun _ => 0) (0x8000 + BitVec.ofNat 64 0x40) 0x1000
    0x2000
  have left : convention.context (coContextSwap cpu).mem 0x1000 = 0x8000 :=
    Threads.left_ready coContextSwap_switched fit apart 0x2000
  generalize mem : (coContextSwap cpu).mem = m at left
  let cpu' : Cpu 64 Reg.width := convention.ready m (0 + BitVec.ofNat 64 0x40) 0x2000 0x1000
  obtain ⟨sp', fromPtr', toPtr'⟩ := fit.ready_val m (0 + BitVec.ofNat 64 0x40) 0x2000 0x1000
  have first : Step plain convention firstSlot coContextSwap ⟨beforeFirst, cpu⟩ (some .go)
      ⟨afterFirst, coContextSwap cpu⟩ := by
    refine .swap (Option.some_get _).symm (by decide) fromPtr toPtr
      (Threads.room sp rfl (fun t asleep => slots t ?_) Convention.context_zero apart)
    exact (threads_asleep.mp asleep).2
  have work : Step plain convention firstSlot coContextSwap ⟨afterFirst, coContextSwap cpu⟩ none
      ⟨afterFirst, cpu'⟩ := .work fun _ _ a _ => congrFun mem.symm a
  have other : afterFirst.self ≠ 0 := by decide
  obtain ⟨steps, -⟩ := quiet_run convention firstSlot coContextSwap cpu' afterFirst_steps other
  have second : Step plain convention firstSlot coContextSwap ⟨beforeSecond, cpu'⟩ (some .go)
      ⟨afterSecond, coContextSwap cpu'⟩ := by
    have ne : afterSecond.self ≠ beforeSecond.self := by decide
    refine .swap (Option.some_get _).symm ne fromPtr' toPtr'
      (Threads.room sp' rfl (fun t asleep => ?_) left apart.symm)
    obtain ⟨live, ne⟩ : beforeSecond.alive t = true ∧ t ≠ 1 := threads_asleep.mp asleep
    have zero : t = 0 := by
      by_contra other
      have dead : beforeSecond.alive t = Function.update (fun t => decide (t = 0)) 1 true t := rfl
      rw [live, Function.update_of_ne ne, decide_eq_false other] at dead
      cases dead
    rw [zero]
    rfl
  have reach : beforeFirst.Reachable plain 0 () := Eh.reachable_get _
  have unfinished : beforeFirst.sched.state beforeFirst.self ≠ .finish := by decide
  have back : afterSecond.self = beforeFirst.self := rfl
  obtain ⟨-, -, rip, rsp, rax⟩ := ehTaskNext_returns coContextSwap_switched fit reach unfinished
    first other (.cons ⟨work, other⟩ steps) second back
  exact ⟨⟨beforeFirst, cpu⟩, ⟨beforeSecond, cpu'⟩, ⟨afterSecond, coContextSwap cpu'⟩, rfl, rfl, rsp,
    rip, rax⟩

theorem ehTaskCreate_starts_first : ∃ x z : Hosted Nat Unit Unit Unit Unit Empty 64 Reg.width,
    x.eh = .init 0 () ∧ z.eh = afterFirst ∧ z.cpu.val .rsp = 0x3000 := by
  have fit := convention_fit
  let s : Cpu 64 Reg.width := convention.ready (fun _ => 0) 0x8048 0x3000 0x400
  obtain ⟨rsp, rsi, rdx⟩ : s.val .rsp = 0x8048 ∧ s.val .rsi = 0x3000 ∧ s.val .rdx = 0x400 :=
    fit.ready_val (fun _ => 0) 0x8048 0x3000 0x400
  have base : madeBase s = 0x2fc0 := by
    rw [madeBase, rsi]
    decide
  have call : Clear (callWord s, 8) (madeBase s, 0x40) := by
    rw [base, callWord, rsp]
    decide
  have own : Clear (0x2000, 8) (madeBase s, 0x40) := by
    rw [base]
    decide
  have context := (makeContext_made 0x500 0x600 0x2000 s call.disjoint own.disjoint).context
  generalize makeContext 0x500 0x600 0x2000 s = s' at context
  rw [base] at context
  have apart : Threads.Apart convention 0x1000 0x2000 0x8000 (0x2fc0 : BitVec 64) := by decide
  have create : Step plain convention firstSlot coContextSwap ⟨.init 0 (), s⟩
      (some (.create 1 false false)) ⟨created, s'⟩ := by
    refine .kernel (Option.some_get _).symm rfl fun t asleep => ?_
    obtain ⟨live, ne⟩ := threads_asleep.mp asleep
    exact absurd (of_decide_eq_true live) ne
  let cpu : Cpu 64 Reg.width := convention.ready s'.mem (0x8000 + BitVec.ofNat 64 0x40) 0x1000 0x2000
  obtain ⟨sp, fromPtr, toPtr⟩ := fit.ready_val s'.mem (0x8000 + BitVec.ofNat 64 0x40) 0x1000 0x2000
  have work : Step plain convention firstSlot coContextSwap ⟨created, s'⟩ none ⟨created, cpu⟩ :=
    .work fun _ _ _ _ => rfl
  have other : created.self ≠ 1 := by decide
  obtain ⟨steps, -⟩ := quiet_run convention firstSlot coContextSwap cpu created_steps other
  have first : Step plain convention firstSlot coContextSwap ⟨beforeFirst, cpu⟩ (some .go)
      ⟨afterFirst, coContextSwap cpu⟩ := by
    have ne : afterFirst.self ≠ beforeFirst.self := by decide
    refine .swap (Option.some_get _).symm ne fromPtr toPtr
      (Threads.room sp rfl (fun t asleep => ?_) context apart)
    exact if_neg (threads_asleep.mp asleep).2
  have reach : (Eh.init 0 () : Eh Nat Unit Unit Unit Unit Empty).Reachable plain 0 () :=
    ⟨[], .nil _⟩
  have turn : afterFirst.self = 1 := rfl
  obtain ⟨-, -, -, top⟩ := ehTaskCreate_starts coContextSwap_switched fit reach create
    (.cons ⟨work, other⟩ steps) first turn
  refine ⟨⟨.init 0 (), s⟩, ⟨afterFirst, coContextSwap cpu⟩, rfl, rfl, top.trans ?_⟩
  rw [show firstSlot 1 = 0x2000 from rfl, context]
  decide

end Example

end EventHub.Coroutine
