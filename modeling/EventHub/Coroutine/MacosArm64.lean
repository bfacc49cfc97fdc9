import EventHub.Library.Contexts

/-! `coroutine/macos-arm64/coroutine.c`. -/

namespace EventHub.Coroutine.MacosArm64
open Library

inductive Reg where
  | x0 | x1 | x2 | x3 | x19 | x20 | x21 | x22 | x23 | x24 | x25 | x26 | x27 | x28 | fp | lr
  | d8 | d9 | d10 | d11 | d12 | d13 | d14 | d15
  | sp | pc
deriving DecidableEq

/-- Of `d8` and the others the lower halves count, that a callee keeps. -/
def Reg.width : Reg → Nat := fun _ => 8

/-! The instructions. -/

section Mnemonics
variable (r s base : Reg) (disp : Nat)

def stp : List (Instr 64 Reg) := [.store r base disp, .store s base (disp + 8)]

def ldp : List (Instr 64 Reg) := [.load r base disp, .load s base (disp + 8)]

def str : List (Instr 64 Reg) := [.store r base disp]

def ldr : List (Instr 64 Reg) := [.load r base disp]

def mov : List (Instr 64 Reg) := [.move r s]

def addSp (a : Int) : List (Instr 64 Reg) := [.add .sp .sp a]

def ret : List (Instr 64 Reg) := [.move .pc r]

end Mnemonics

/-- The body of `co_context_swap`. -/
def coContextSwapBody : List (Instr 64 Reg) :=
  addSp (-0xa0) ++
  stp .d8 .d9 .sp 0x00 ++
  stp .d10 .d11 .sp 0x10 ++
  stp .d12 .d13 .sp 0x20 ++
  stp .d14 .d15 .sp 0x30 ++
  stp .x19 .x20 .sp 0x40 ++
  stp .x21 .x22 .sp 0x50 ++
  stp .x23 .x24 .sp 0x60 ++
  stp .x25 .x26 .sp 0x70 ++
  stp .x27 .x28 .sp 0x80 ++
  stp .fp .lr .sp 0x90 ++
  mov .x3 .sp ++
  str .x3 .x1 0x00 ++
  ldr .x3 .x2 0x00 ++
  mov .sp .x3 ++
  ldp .d8 .d9 .sp 0x00 ++
  ldp .d10 .d11 .sp 0x10 ++
  ldp .d12 .d13 .sp 0x20 ++
  ldp .d14 .d15 .sp 0x30 ++
  ldp .x19 .x20 .sp 0x40 ++
  ldp .x21 .x22 .sp 0x50 ++
  ldp .x23 .x24 .sp 0x60 ++
  ldp .x25 .x26 .sp 0x70 ++
  ldp .x27 .x28 .sp 0x80 ++
  ldp .fp .lr .sp 0x90 ++
  addSp 0xa0 ++
  ret .lr

/-- `co_context_swap`; `lr` is the address behind the `bl`. -/
def coContextSwap (s : Cpu 64 Reg.width) : Cpu 64 Reg.width := exec coContextSwapBody s

def convention : Convention Reg where
  sp := .sp
  pc := .pc
  link := .lr
  arg := .x0
  fromPtr := .x1
  toPtr := .x2
  result := .x0
  kept := [(.d8, 0x00), (.d9, 0x08), (.d10, 0x10), (.d11, 0x18), (.d12, 0x20), (.d13, 0x28),
    (.d14, 0x30), (.d15, 0x38), (.x19, 0x40), (.x20, 0x48), (.x21, 0x50), (.x22, 0x58),
    (.x23, 0x60), (.x24, 0x68), (.x25, 0x70), (.x26, 0x78), (.x27, 0x80), (.x28, 0x88),
    (.fp, 0x90)]
  linkOffset := 0x98
  size := 0xa0
  pointer := 8

theorem convention_fit : convention.Fit 64 Reg.width where
  frame := by decide
  small := by decide
  address := rfl
  sp := rfl
  pc := rfl
  link := rfl
  result := rfl
  pointers := ⟨rfl, rfl⟩
  apart := by decide

def stored : FrameLayout Reg := convention.kept ++ [(.lr, 0x98)]

theorem coContextSwap_code : coContextSwapBody =
    (let c := convention
    [.add c.sp c.sp (-0xa0)] ++
      (stored.store c.sp ++ [.move .x3 c.sp, .store .x3 c.fromPtr 0, .load .x3 c.toPtr 0,
          .move c.sp .x3] ++
        stored.load c.sp ++ [.add c.sp c.sp 0xa0, .move c.pc .lr])) := rfl

theorem coContextSwap_switched (s : Cpu 64 Reg.width) :
    convention.Switched s (coContextSwap s) := by
  have fit := convention_fit
  have base : BitVec.ofInt 64 (-0xa0) = -BitVec.ofNat 64 convention.size := by decide
  rw [coContextSwap, coContextSwap_code, exec_append]
  obtain ⟨mem, sp, others⟩ := fit.exec_enter (s := s) (-0xa0)
  apply fit.switched (L := stored) (M := stored) (q := .lr)
  · rw [sp, base, Convention.base, BitVec.sub_eq_add_neg]
  · exact others
  · rw [mem]
  · exact List.perm_append_singleton ..
  · decide
  · decide
  · exact fit.exchanges_through rfl (by decide) (by decide) (by decide) (by decide)
  · decide
  · decide
  · decide
  · decide
  · rfl
  · exact fit.leaves_return (by decide) (by decide) rfl (by decide) (by decide) (by decide)

/-! New contexts. -/

section Make
variable (startTask behind : BitVec 64)

/-- `co_context_make`: the memory, and the context. -/
def coContextMake (m : Bytes 64) (stackTop func : BitVec 64) : Bytes 64 × BitVec 64 :=
  let context := (stackTop &&& ~~~0x0f) - BitVec.ofNat 64 0xa0
  let m := m.write (k := 8) (context + BitVec.ofNat 64 0x40) func
  let m := m.write (k := 8) (context + BitVec.ofNat 64 0x98) startTask
  (m, context)

/-- `task->context = co_context_make(stack, stack + stack_size, func)`. -/
def makeContext (slot : BitVec 64) (m : Bytes 64) (stackTop func : BitVec 64) : Bytes 64 :=
  let (m, context) := coContextMake startTask m stackTop func
  convention.assign m slot context

/-- `__start_task`; `behind` is the label after its call. -/
def startTaskBody : List (Instr 64 Reg) := [.set .lr behind, .move .pc .x19]

def made : FrameLayout Reg := [(.x19, 0x40), (.lr, 0x98)]

def madeRegs (func : BitVec 64) : (r : Reg) → BitVec (8 * r.width)
  | .x19 => func
  | .lr => startTask
  | _ => 0

def madeBase (stackTop : BitVec 64) : BitVec 64 := (stackTop &&& ~~~0x0f) - BitVec.ofNat 64 0xa0

variable {startTask behind}

theorem makeContext_made (startTask slot : BitVec 64) (m : Bytes 64) {stackTop : BitVec 64}
    (func : BitVec 64)
    (own : Disjoint (area slot 8) (area (madeBase stackTop) 0xa0)) :
    convention.Made m (makeContext startTask slot m stackTop func) slot (madeBase stackTop)
      made (madeRegs startTask func) ∅ := by
  have fits : made.Fits Reg.width 0xa0 := by decide
  have spill : makeContext startTask slot m stackTop func = convention.assign
    (m.spill made (madeBase stackTop) (madeRegs startTask func)) slot (madeBase stackTop) := rfl
  rw [spill]
  exact convention_fit.made fits (Bytes.spill_holds fits (by decide)) own fun x out =>
    Bytes.spill_of_notMem fits fun inside => out (.inl inside)

end Make

section Threads
open Threads
variable {T : Type} [DecidableEq T] {slot : T → BitVec 64} {t u : T} {ls : List (Label T)}
  {x x' y z : Threads T 64 Reg.width}

/-- A task that calls `co_context_swap` returns from it when another task swaps to it, whatever
happens in between. -/
theorem arm64_returns (leave : Step convention slot coContextSwap x (.switch u) x')
    (run : Run (Step convention slot coContextSwap) x' ls y) (awake : .switch x.running ∉ ls)
    (kept : .drop x.running ∉ ls)
    (enter : Step convention slot coContextSwap y (.switch x.running) z) :
    (∀ r ∈ [.x19, .x20, .x21, .x22, .x23, .x24, .x25, .x26, .x27, .x28, .fp, .d8, .d9, .d10, .d11,
      .d12, .d13, .d14, .d15], z.cpu.regs r = x.cpu.regs r) ∧
      z.cpu.val .pc = x.cpu.val .lr ∧ z.cpu.val .sp = x.cpu.val .sp ∧
        z.cpu.val .x0 = y.cpu.val .x0 := by
  obtain ⟨regs, pc, sp, result⟩ :=
    resumes coContextSwap_switched convention_fit leave run awake kept enter
  refine ⟨fun r mem => ?_, pc, sp, result⟩
  have one : ∀ r ∈ [Reg.x19, .x20, .x21, .x22, .x23, .x24, .x25, .x26, .x27, .x28, .fp, .d8, .d9,
      .d10, .d11, .d12, .d13, .d14, .d15], ∃ slot ∈ convention.kept, slot.1 = r := by decide
  obtain ⟨slot, inside, rfl⟩ := one r mem
  exact regs slot inside

theorem arm64_returns_pair :
    ∃ x y z : Threads Bool 64 Reg.width, Run (Step convention (pair 0x1000 0x2000) coContextSwap)
      x [.switch true, .work, .switch false] z ∧ z.cpu.val .sp = x.cpu.val .sp ∧
        z.cpu.val .pc = x.cpu.val .lr ∧ z.cpu.val .x0 = y.cpu.val .x0 := by
  obtain ⟨x, x', y, z, first, leave, run, enter⟩ := exists_return (p := 0x1000) (q := 0x2000)
    (a := 0x8000) coContextSwap_switched convention_fit Convention.context_zero (by decide)
  obtain ⟨-, pc, sp, result⟩ := arm64_returns leave run (by simp) (by simp) (first ▸ enter)
  exact ⟨x, y, z, .cons leave (run.append (.single enter)), sp, pc, result⟩

/-- A task whose context has been made starts in `func`, with the argument of the first
`co_context_swap` to it, at the aligned top of its stack. -/
theorem arm64_starts {startTask stackTop func : BitVec 64} (behind : BitVec 64)
    (make : Step convention slot coContextSwap x (.make t) x')
    (call : x'.cpu.mem = makeContext startTask (slot t) x.cpu.mem stackTop func)
    (own : Disjoint (area (slot t) 8) (area (madeBase stackTop) 0xa0))
    (run : Run (Step convention slot coContextSwap) x' ls y)
    (awake : .switch t ∉ ls) (kept : .drop t ∉ ls)
    (enter : Step convention slot coContextSwap y (.switch t) z) :
    z.cpu.val .pc = startTask ∧
    let s := exec (startTaskBody behind) z.cpu
    s.val .pc = func ∧ s.val .lr = behind ∧ s.val .x0 = y.cpu.val .x0 ∧
      s.val .sp = stackTop &&& ~~~0x0f := by
  have made := makeContext_made startTask (slot t) x.cpu.mem func own
  obtain ⟨regs, pc, sp, arg⟩ :=
    starts coContextSwap_switched convention_fit (asleep_of_make make) (call ▸ made) run awake kept
      enter
  obtain ⟨-, pc', lr, others⟩ := exec_link z.cpu .lr .pc .x19 ⟨rfl, rfl⟩ (by decide) (by decide)
    behind
  refine ⟨(pc (by decide)).trans (BitVec.setWidth_eq _), pc'.trans ?_, lr, ?_, ?_⟩
  · rw [Cpu.val, regs (.x19, 0x40) (by decide) (by decide)]
    exact BitVec.setWidth_eq _
  · exact (congrArg _ (others _ (by decide) (by decide))).trans arg
  · refine (congrArg _ (others _ (by decide) (by decide))).trans (sp.trans ?_)
    exact BitVec.sub_add_cancel ..

theorem arm64_starts_first :
    ∃ x y z : Threads Bool 64 Reg.width, Run (Step convention (pair 0x1000 0x2000) coContextSwap)
      x [.make true, .work, .switch true] z ∧
        let s := exec (startTaskBody 0x504) z.cpu
        s.val .pc = 0x400 ∧ s.val .x0 = y.cpu.val .x0 ∧ s.val .sp = 0x3000 &&& ~~~0x0f := by
  have base : madeBase 0x3000 = 0x2f60 := by decide
  have own : Clear (0x2000, 8) (madeBase 0x3000, 0xa0) := by decide
  let s : Cpu 64 Reg.width := convention.ready (fun _ => 0) 0 0 0
  let s' := s.setMem (makeContext 0x500 0x2000 s.mem 0x3000 0x400)
  have made := makeContext_made 0x500 0x2000 s.mem 0x400 own.disjoint
  obtain ⟨x', y, z, cpu, make, run, enter⟩ := exists_start coContextSwap s s' (p := 0x1000) (q := 0x2000)
    (a := 0x8000) convention_fit made.context (by rw [base]; decide)
  obtain ⟨-, pc, -, arg, top⟩ := arm64_starts 0x504 make (congrArg Cpu.mem cpu)
    own.disjoint run (by simp) (by simp) enter
  exact ⟨_, y, z, .cons make (run.append (.single enter)), pc, arg, top⟩

end Threads

end EventHub.Coroutine.MacosArm64
