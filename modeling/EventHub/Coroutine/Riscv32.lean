import EventHub.Library.Contexts

/-! `coroutine/riscv32-bumblebee-n200`: `coroutine.S` and `coroutine.c`. -/

namespace EventHub.Coroutine.Riscv32
open Library

inductive Reg where
  | ra | sp | s0 | s1 | s2 | s3 | s4 | s5 | s6 | s7 | s8 | s9 | s10 | s11 | a0 | a1 | a2 | pc
deriving DecidableEq

def Reg.width : Reg → Nat := fun _ => 4

def REGBYTES : Nat := 4

/-! The instructions, with their operands in the order of the source. -/

section Mnemonics
variable (r base : Reg) (disp : Nat)

def sw : Instr 32 Reg := .store r base disp

def lw : Instr 32 Reg := .load r base disp

def addi (dst src : Reg) (a : Int) : Instr 32 Reg := .add dst src a

def ret : Instr 32 Reg := .move .pc .ra

end Mnemonics

/-- The body of `co_context_swap`. -/
def coContextSwapBody : List (Instr 32 Reg) :=
  [ addi .sp .sp (-13 * REGBYTES),
    sw .s0 .sp (0 * REGBYTES),
    sw .s1 .sp (1 * REGBYTES),
    sw .s2 .sp (2 * REGBYTES),
    sw .s3 .sp (3 * REGBYTES),
    sw .s4 .sp (4 * REGBYTES),
    sw .s5 .sp (5 * REGBYTES),
    sw .s6 .sp (6 * REGBYTES),
    sw .s7 .sp (7 * REGBYTES),
    sw .s8 .sp (8 * REGBYTES),
    sw .s9 .sp (9 * REGBYTES),
    sw .s10 .sp (10 * REGBYTES),
    sw .s11 .sp (11 * REGBYTES),
    sw .ra .sp (12 * REGBYTES),
    sw .sp .a1 (0 * REGBYTES),
    lw .sp .a2 (0 * REGBYTES),
    lw .ra .sp (12 * REGBYTES),
    lw .s11 .sp (11 * REGBYTES),
    lw .s10 .sp (10 * REGBYTES),
    lw .s9 .sp (9 * REGBYTES),
    lw .s8 .sp (8 * REGBYTES),
    lw .s7 .sp (7 * REGBYTES),
    lw .s6 .sp (6 * REGBYTES),
    lw .s5 .sp (5 * REGBYTES),
    lw .s4 .sp (4 * REGBYTES),
    lw .s3 .sp (3 * REGBYTES),
    lw .s2 .sp (2 * REGBYTES),
    lw .s1 .sp (1 * REGBYTES),
    lw .s0 .sp (0 * REGBYTES),
    addi .sp .sp (13 * REGBYTES),
    ret ]

/-- `co_context_swap`; `ra` is the address behind the call. -/
def coContextSwap (s : Cpu 32 Reg.width) : Cpu 32 Reg.width := exec coContextSwapBody s

def convention : Convention Reg where
  sp := .sp
  pc := .pc
  link := .ra
  arg := .a0
  fromPtr := .a1
  toPtr := .a2
  result := .a0
  kept := [(.s0, 0), (.s1, 4), (.s2, 8), (.s3, 12), (.s4, 16), (.s5, 20), (.s6, 24), (.s7, 28),
    (.s8, 32), (.s9, 36), (.s10, 40), (.s11, 44)]
  linkOffset := 48
  size := 52
  pointer := 4

theorem convention_fit : convention.Fit 32 Reg.width where
  frame := by decide
  small := by decide
  address := rfl
  sp := rfl
  pc := rfl
  link := rfl
  result := rfl
  pointers := ⟨rfl, rfl⟩
  apart := by decide

/-- `struct stack_init_context`, in the order in which the registers are stored. -/
def stackInitContext : FrameLayout Reg := convention.kept ++ [(.ra, 48)]

theorem coContextSwap_code : coContextSwapBody =
    (let c := convention
    [.add c.sp c.sp (-52)] ++
      (stackInitContext.store c.sp ++ [.store c.sp c.fromPtr 0, .load c.sp c.toPtr 0] ++
        FrameLayout.load stackInitContext.reverse c.sp ++ [.add c.sp c.sp 52, .move c.pc .ra])) :=
  rfl

theorem coContextSwap_switched (s : Cpu 32 Reg.width) :
    convention.Switched s (coContextSwap s) := by
  have fit := convention_fit
  have base : BitVec.ofInt 32 (-52) = -BitVec.ofNat 32 convention.size := by decide
  rw [coContextSwap, coContextSwap_code, exec_append]
  obtain ⟨mem, sp, others⟩ := fit.exec_enter (s := s) (-52)
  apply fit.switched (L := stackInitContext.reverse) (M := stackInitContext) (q := .ra)
  · rw [sp, base, Convention.base, BitVec.sub_eq_add_neg]
  · exact others
  · rw [mem]
  · exact List.perm_append_singleton ..
  · decide
  · decide
  · exact fit.exchanges (by decide)
  · decide
  · decide
  · decide
  · decide
  · rfl
  · exact fit.leaves_return (by decide) (by decide) rfl (by decide) (by decide) (by decide)

/-! New contexts. -/

section Make
variable (startTask behind : BitVec 32)

/-- `co_context_make`: the memory, and the context. -/
def coContextMake (m : Bytes 32) (stackTop func : BitVec 32) : Bytes 32 × BitVec 32 :=
  let ctx := (stackTop &&& ~~~0xf) - BitVec.ofNat 32 52
  let m := m.write ctx (0 : BitVec (8 * 52))
  let m := m.write (k := 4) (ctx + BitVec.ofNat 32 48) startTask
  let m := m.write (k := 4) (ctx + BitVec.ofNat 32 0) func
  (m, ctx)

/-- `task->context = co_context_make(stack, stack + stack_size, func)`. -/
def makeContext (slot : BitVec 32) (m : Bytes 32) (stackTop func : BitVec 32) : Bytes 32 :=
  let (m, context) := coContextMake startTask m stackTop func
  convention.assign m slot context

/-- `__start_task`; `behind` is the label after its call. -/
def startTaskBody : List (Instr 32 Reg) := [.set .ra behind, .move .pc .s0]

def written : FrameLayout Reg := [(.ra, 48), (.s0, 0)]

def madeRegs (func : BitVec 32) : (r : Reg) → BitVec (8 * r.width)
  | .s0 => func
  | .ra => startTask
  | _ => 0

def madeBase (stackTop : BitVec 32) : BitVec 32 := (stackTop &&& ~~~0xf) - BitVec.ofNat 32 52

variable {startTask behind}

theorem madeRegs_of_ne {func : BitVec 32} {r : Reg} (s0 : r ≠ .s0) (ra : r ≠ .ra) :
    madeRegs startTask func r = 0 := by
  cases r <;> first | rfl | exact absurd rfl s0 | exact absurd rfl ra

theorem makeContext_made (startTask slot : BitVec 32) (m : Bytes 32) {stackTop : BitVec 32}
    (func : BitVec 32)
    (own : Disjoint (area slot 4) (area (madeBase stackTop) 52)) :
    convention.Made m (makeContext startTask slot m stackTop func) slot (madeBase stackTop)
      stackInitContext (madeRegs startTask func) ∅ := by
  have spill : makeContext startTask slot m stackTop func = convention.assign
    ((m.write (madeBase stackTop) (0 : BitVec (8 * 52))).spill written (madeBase stackTop)
      (madeRegs startTask func)) slot (madeBase stackTop) := rfl
  have others : ∀ slot ∈ stackInitContext, slot ∉ written → slot.1 ≠ .s0 ∧ slot.1 ≠ .ra := by
    decide
  rw [spill]
  exact convention_fit.made_clear (by decide) (by decide) (by decide)
    (fun slot inside out => madeRegs_of_ne (others slot inside out).1 (others slot inside out).2) own

end Make

section Threads
open Threads
variable {T : Type} [DecidableEq T] {slot : T → BitVec 32} {t u : T} {ls : List (Label T)}
  {x x' y z : Threads T 32 Reg.width}

/-- A task that calls `co_context_swap` returns from it when another task swaps to it, whatever
happens in between. -/
theorem riscv32_returns (leave : Step convention slot coContextSwap x (.switch u) x')
    (run : Run (Step convention slot coContextSwap) x' ls y) (awake : .switch x.running ∉ ls)
    (kept : .drop x.running ∉ ls)
    (enter : Step convention slot coContextSwap y (.switch x.running) z) :
    (∀ r ∈ [.s0, .s1, .s2, .s3, .s4, .s5, .s6, .s7, .s8, .s9, .s10, .s11],
      z.cpu.regs r = x.cpu.regs r) ∧
      z.cpu.val .pc = x.cpu.val .ra ∧ z.cpu.val .sp = x.cpu.val .sp ∧
        z.cpu.val .a0 = y.cpu.val .a0 := by
  obtain ⟨regs, pc, sp, result⟩ :=
    resumes coContextSwap_switched convention_fit leave run awake kept enter
  refine ⟨fun r mem => ?_, pc, sp, result⟩
  have one : ∀ r ∈ [Reg.s0, .s1, .s2, .s3, .s4, .s5, .s6, .s7, .s8, .s9, .s10, .s11],
      ∃ slot ∈ convention.kept, slot.1 = r := by decide
  obtain ⟨slot, inside, rfl⟩ := one r mem
  exact regs slot inside

theorem riscv32_returns_pair :
    ∃ x y z : Threads Bool 32 Reg.width, Run (Step convention (pair 0x1000 0x2000) coContextSwap)
      x [.switch true, .work, .switch false] z ∧ z.cpu.val .sp = x.cpu.val .sp ∧
        z.cpu.val .pc = x.cpu.val .ra ∧ z.cpu.val .a0 = y.cpu.val .a0 := by
  obtain ⟨x, x', y, z, first, leave, run, enter⟩ := exists_return (p := 0x1000) (q := 0x2000)
    (a := 0x8000) coContextSwap_switched convention_fit Convention.context_zero (by decide)
  obtain ⟨-, pc, sp, result⟩ := riscv32_returns leave run (by simp) (by simp) (first ▸ enter)
  exact ⟨x, y, z, .cons leave (run.append (.single enter)), sp, pc, result⟩

/-- A task whose context has been made starts in `func`, with the argument of the first
`co_context_swap` to it, at the aligned top of its stack. -/
theorem riscv32_starts {startTask stackTop func : BitVec 32} (behind : BitVec 32)
    (make : Step convention slot coContextSwap x (.make t) x')
    (call : x'.cpu.mem = makeContext startTask (slot t) x.cpu.mem stackTop func)
    (own : Disjoint (area (slot t) 4) (area (madeBase stackTop) 52))
    (run : Run (Step convention slot coContextSwap) x' ls y)
    (awake : .switch t ∉ ls) (kept : .drop t ∉ ls)
    (enter : Step convention slot coContextSwap y (.switch t) z) :
    z.cpu.val .pc = startTask ∧
    let s := exec (startTaskBody behind) z.cpu
    s.val .pc = func ∧ s.val .ra = behind ∧ s.val .a0 = y.cpu.val .a0 ∧
      s.val .sp = stackTop &&& ~~~0xf ∧
        ∀ r ∈ [.s1, .s2, .s3, .s4, .s5, .s6, .s7, .s8, .s9, .s10, .s11], s.regs r = 0 := by
  have made := makeContext_made startTask (slot t) x.cpu.mem func own
  obtain ⟨regs, pc, sp, arg⟩ :=
    starts coContextSwap_switched convention_fit (asleep_of_make make) (call ▸ made) run awake kept
      enter
  obtain ⟨-, pc', ra, others⟩ := exec_link z.cpu .ra .pc .s0 ⟨rfl, rfl⟩ (by decide) (by decide)
    behind
  refine ⟨(pc (by decide)).trans (BitVec.setWidth_eq _), pc'.trans ?_, ra, ?_, ?_,
    fun r mem => ?_⟩
  · rw [Cpu.val, regs (.s0, 0) (by decide) (by decide)]
    exact BitVec.setWidth_eq _
  · exact (congrArg _ (others _ (by decide) (by decide))).trans arg
  · refine (congrArg _ (others _ (by decide) (by decide))).trans (sp.trans ?_)
    exact BitVec.sub_add_cancel ..
  · have one : ∀ r ∈ [Reg.s1, .s2, .s3, .s4, .s5, .s6, .s7, .s8, .s9, .s10, .s11],
        (∃ slot ∈ convention.kept, slot ∈ stackInitContext ∧ slot.1 = r) ∧
          r ≠ .pc ∧ r ≠ .ra ∧ r ≠ .s0 := by decide
    obtain ⟨⟨slot, inside, there, rfl⟩, pc, ra, s0⟩ := one r mem
    exact (others _ pc ra).trans ((regs slot inside there).trans (madeRegs_of_ne s0 ra))

theorem riscv32_starts_first :
    ∃ x y z : Threads Bool 32 Reg.width, Run (Step convention (pair 0x1000 0x2000) coContextSwap)
      x [.make true, .work, .switch true] z ∧
        let s := exec (startTaskBody 0x504) z.cpu
        s.val .pc = 0x400 ∧ s.val .a0 = y.cpu.val .a0 ∧ s.val .sp = 0x3000 &&& ~~~0xf := by
  have base : madeBase 0x3000 = 0x2fcc := by decide
  have own : Clear (0x2000, 4) (madeBase 0x3000, 52) := by decide
  let s : Cpu 32 Reg.width := convention.ready (fun _ => 0) 0 0 0
  let s' := s.setMem (makeContext 0x500 0x2000 s.mem 0x3000 0x400)
  have made := makeContext_made 0x500 0x2000 s.mem 0x400 own.disjoint
  obtain ⟨x', y, z, cpu, make, run, enter⟩ := exists_start coContextSwap s s' (p := 0x1000) (q := 0x2000)
    (a := 0x8000) convention_fit made.context (by rw [base]; decide)
  obtain ⟨-, pc, -, arg, top, -⟩ := riscv32_starts 0x504 make (congrArg Cpu.mem cpu)
    own.disjoint run (by simp) (by simp) enter
  exact ⟨_, y, z, .cons make (run.append (.single enter)), pc, arg, top⟩

end Threads

end EventHub.Coroutine.Riscv32
