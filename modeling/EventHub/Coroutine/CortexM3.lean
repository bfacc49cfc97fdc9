import EventHub.Library.Contexts

/-! `coroutine/cortex-m3/coroutine_psp.c`. The bit of code addresses that selects Thumb is left
in them. -/

namespace EventHub.Coroutine.CortexM3
open Library

inductive Reg where
  | r0 | r1 | r2 | r3 | r4 | r5 | r6 | r7 | r8 | r9 | r10 | r11 | r12 | sp | lr | pc
deriving DecidableEq

def Reg.width : Reg → Nat := fun _ => 4

/-! The instructions. -/

section Mnemonics
variable (rs : List Reg) (r s : Reg)

/-- The registers `rs` in a row, from the stack pointer on. -/
def row : FrameLayout Reg := rs.zipIdx.map fun (r, i) => (r, 4 * i)

def push : List (Instr 32 Reg) := .add .sp .sp (-(4 * rs.length)) :: (row rs).store .sp

def pop : List (Instr 32 Reg) := (row rs).load .sp ++ [.add .sp .sp (4 * rs.length)]

def mov : List (Instr 32 Reg) := [.move r s]

def str : List (Instr 32 Reg) := [.store r s 0]

def ldr : List (Instr 32 Reg) := [.load r s 0]

end Mnemonics

/-- The body of `co_context_swap`. -/
def coContextSwapBody : List (Instr 32 Reg) :=
  push [.r4, .r5, .r6, .r7, .r8, .r9, .r10, .r11, .r12, .lr] ++
  mov .r3 .sp ++
  str .r3 .r1 ++
  ldr .r3 .r2 ++
  mov .sp .r3 ++
  pop [.r4, .r5, .r6, .r7, .r8, .r9, .r10, .r11, .r12, .pc]

/-- `co_context_swap`; `lr` is the address behind the `bl`. -/
def coContextSwap (s : Cpu 32 Reg.width) : Cpu 32 Reg.width := exec coContextSwapBody s

def convention : Convention Reg where
  sp := .sp
  pc := .pc
  link := .lr
  arg := .r0
  fromPtr := .r1
  toPtr := .r2
  result := .r0
  kept := [(.r4, 0), (.r5, 4), (.r6, 8), (.r7, 12), (.r8, 16), (.r9, 20), (.r10, 24), (.r11, 28),
    (.r12, 32)]
  linkOffset := 36
  size := 40
  pointer := 4

theorem convention_fit : convention.Fit 32 Reg.width where
  frame := by decide
  small := by decide
  address := rfl
  sp := rfl
  pc := rfl
  link := rfl
  result := rfl
  pointers := ⟨rfl, rfl⟩
  apart := by decide

/-- `struct stack_init_context`. -/
def stackInitContext : FrameLayout Reg := convention.kept ++ [(.lr, 36)]

def loaded : FrameLayout Reg := convention.kept ++ [(.pc, 36)]

theorem coContextSwap_code : coContextSwapBody =
    (let c := convention
    [.add c.sp c.sp (-40)] ++
      (stackInitContext.store c.sp ++ [.move .r3 c.sp, .store .r3 c.fromPtr 0,
          .load .r3 c.toPtr 0, .move c.sp .r3] ++
        loaded.load c.sp ++ [.add c.sp c.sp 40])) := rfl

theorem coContextSwap_switched (s : Cpu 32 Reg.width) :
    convention.Switched s (coContextSwap s) := by
  have fit := convention_fit
  have base : BitVec.ofInt 32 (-40) = -BitVec.ofNat 32 convention.size := by decide
  rw [coContextSwap, coContextSwap_code, exec_append]
  obtain ⟨mem, sp, others⟩ := fit.exec_enter (s := s) (-40)
  apply fit.switched (L := loaded) (M := stackInitContext) (q := .pc)
  · rw [sp, base, Convention.base, BitVec.sub_eq_add_neg]
  · exact others
  · rw [mem]
  · exact List.perm_append_singleton ..
  · decide
  · decide
  · exact fit.exchanges_through rfl (by decide) (by decide) (by decide) (by decide)
  · decide
  · decide
  · decide
  · decide
  · rfl
  · exact fit.leaves_popped (by decide) rfl (by decide) (by decide) (by decide)

/-! New contexts. -/

section Make
variable (startTask behind : BitVec 32)

/-- `co_context_make`: the memory, and the context. -/
def coContextMake (m : Bytes 32) (stackTop func : BitVec 32) : Bytes 32 × BitVec 32 :=
  let contextM3 := (stackTop &&& ~~~7) - BitVec.ofNat 32 40
  let m := m.write contextM3 (0 : BitVec (8 * 40))
  let m := m.write (k := 4) (contextM3 + BitVec.ofNat 32 36) startTask
  let m := m.write (k := 4) (contextM3 + BitVec.ofNat 32 12) func
  (m, contextM3)

/-- `task->context = co_context_make(stack, stack + stack_size, func)`. -/
def makeContext (slot : BitVec 32) (m : Bytes 32) (stackTop func : BitVec 32) : Bytes 32 :=
  let (m, context) := coContextMake startTask m stackTop func
  convention.assign m slot context

/-- `__start_task`; `behind` is the label after its call. -/
def startTaskBody : List (Instr 32 Reg) := [.set .lr behind, .move .pc .r7]

def written : FrameLayout Reg := [(.lr, 36), (.r7, 12)]

def madeRegs (func : BitVec 32) : (r : Reg) → BitVec (8 * r.width)
  | .r7 => func
  | .lr => startTask
  | _ => 0

def madeBase (stackTop : BitVec 32) : BitVec 32 := (stackTop &&& ~~~7) - BitVec.ofNat 32 40

variable {startTask behind}

theorem madeRegs_of_ne {func : BitVec 32} {r : Reg} (r7 : r ≠ .r7) (lr : r ≠ .lr) :
    madeRegs startTask func r = 0 := by
  cases r <;> first | rfl | exact absurd rfl r7 | exact absurd rfl lr

theorem makeContext_made (startTask slot : BitVec 32) (m : Bytes 32) {stackTop : BitVec 32}
    (func : BitVec 32)
    (own : Disjoint (area slot 4) (area (madeBase stackTop) 40)) :
    convention.Made m (makeContext startTask slot m stackTop func) slot (madeBase stackTop)
      stackInitContext (madeRegs startTask func) ∅ := by
  have spill : makeContext startTask slot m stackTop func = convention.assign
    ((m.write (madeBase stackTop) (0 : BitVec (8 * 40))).spill written (madeBase stackTop)
      (madeRegs startTask func)) slot (madeBase stackTop) := rfl
  have others : ∀ slot ∈ stackInitContext, slot ∉ written → slot.1 ≠ .r7 ∧ slot.1 ≠ .lr := by
    decide
  rw [spill]
  exact convention_fit.made_clear (by decide) (by decide) (by decide)
    (fun slot inside out => madeRegs_of_ne (others slot inside out).1 (others slot inside out).2) own

end Make

section Threads
open Threads
variable {T : Type} [DecidableEq T] {slot : T → BitVec 32} {t u : T} {ls : List (Label T)}
  {x x' y z : Threads T 32 Reg.width}

/-- A task that calls `co_context_swap` returns from it when another task swaps to it, whatever
happens in between. -/
theorem cortexM3_returns (leave : Step convention slot coContextSwap x (.switch u) x')
    (run : Run (Step convention slot coContextSwap) x' ls y) (awake : .switch x.running ∉ ls)
    (kept : .drop x.running ∉ ls)
    (enter : Step convention slot coContextSwap y (.switch x.running) z) :
    (∀ r ∈ [.r4, .r5, .r6, .r7, .r8, .r9, .r10, .r11, .r12],
      z.cpu.regs r = x.cpu.regs r) ∧
      z.cpu.val .pc = x.cpu.val .lr ∧ z.cpu.val .sp = x.cpu.val .sp ∧
        z.cpu.val .r0 = y.cpu.val .r0 := by
  obtain ⟨regs, pc, sp, result⟩ :=
    resumes coContextSwap_switched convention_fit leave run awake kept enter
  refine ⟨fun r mem => ?_, pc, sp, result⟩
  have one : ∀ r ∈ [Reg.r4, .r5, .r6, .r7, .r8, .r9, .r10, .r11, .r12],
      ∃ slot ∈ convention.kept, slot.1 = r := by decide
  obtain ⟨slot, inside, rfl⟩ := one r mem
  exact regs slot inside

theorem cortexM3_returns_pair :
    ∃ x y z : Threads Bool 32 Reg.width, Run (Step convention (pair 0x1000 0x2000) coContextSwap)
      x [.switch true, .work, .switch false] z ∧ z.cpu.val .sp = x.cpu.val .sp ∧
        z.cpu.val .pc = x.cpu.val .lr ∧ z.cpu.val .r0 = y.cpu.val .r0 := by
  obtain ⟨x, x', y, z, first, leave, run, enter⟩ := exists_return (p := 0x1000) (q := 0x2000)
    (a := 0x8000) coContextSwap_switched convention_fit Convention.context_zero (by decide)
  obtain ⟨-, pc, sp, result⟩ := cortexM3_returns leave run (by simp) (by simp) (first ▸ enter)
  exact ⟨x, y, z, .cons leave (run.append (.single enter)), sp, pc, result⟩

/-- A task whose context has been made starts in `func`, with the argument of the first
`co_context_swap` to it, at the aligned top of its stack. -/
theorem cortexM3_starts {startTask stackTop func : BitVec 32} (behind : BitVec 32)
    (make : Step convention slot coContextSwap x (.make t) x')
    (call : x'.cpu.mem = makeContext startTask (slot t) x.cpu.mem stackTop func)
    (own : Disjoint (area (slot t) 4) (area (madeBase stackTop) 40))
    (run : Run (Step convention slot coContextSwap) x' ls y)
    (awake : .switch t ∉ ls) (kept : .drop t ∉ ls)
    (enter : Step convention slot coContextSwap y (.switch t) z) :
    z.cpu.val .pc = startTask ∧
    let s := exec (startTaskBody behind) z.cpu
    s.val .pc = func ∧ s.val .lr = behind ∧ s.val .r0 = y.cpu.val .r0 ∧
      s.val .sp = stackTop &&& ~~~7 ∧
        ∀ r ∈ [.r4, .r5, .r6, .r8, .r9, .r10, .r11, .r12], s.regs r = 0 := by
  have made := makeContext_made startTask (slot t) x.cpu.mem func own
  obtain ⟨regs, pc, sp, arg⟩ :=
    starts coContextSwap_switched convention_fit (asleep_of_make make) (call ▸ made) run awake kept
      enter
  obtain ⟨-, pc', lr, others⟩ := exec_link z.cpu .lr .pc .r7 ⟨rfl, rfl⟩ (by decide) (by decide)
    behind
  refine ⟨(pc (by decide)).trans (BitVec.setWidth_eq _), pc'.trans ?_, lr, ?_, ?_,
    fun r mem => ?_⟩
  · rw [Cpu.val, regs (.r7, 12) (by decide) (by decide)]
    exact BitVec.setWidth_eq _
  · exact (congrArg _ (others _ (by decide) (by decide))).trans arg
  · refine (congrArg _ (others _ (by decide) (by decide))).trans (sp.trans ?_)
    exact BitVec.sub_add_cancel ..
  · have one : ∀ r ∈ [Reg.r4, .r5, .r6, .r8, .r9, .r10, .r11, .r12],
        (∃ slot ∈ convention.kept, slot ∈ stackInitContext ∧ slot.1 = r) ∧
          r ≠ .pc ∧ r ≠ .lr ∧ r ≠ .r7 := by decide
    obtain ⟨⟨slot, inside, there, rfl⟩, pc, lr, r7⟩ := one r mem
    exact (others _ pc lr).trans ((regs slot inside there).trans (madeRegs_of_ne r7 lr))

theorem cortexM3_starts_first :
    ∃ x y z : Threads Bool 32 Reg.width, Run (Step convention (pair 0x1000 0x2000) coContextSwap)
      x [.make true, .work, .switch true] z ∧
        let s := exec (startTaskBody 0x504) z.cpu
        s.val .pc = 0x400 ∧ s.val .r0 = y.cpu.val .r0 ∧ s.val .sp = 0x3000 &&& ~~~7 := by
  have base : madeBase 0x3000 = 0x2fd8 := by decide
  have own : Clear (0x2000, 4) (madeBase 0x3000, 40) := by decide
  let s : Cpu 32 Reg.width := convention.ready (fun _ => 0) 0 0 0
  let s' := s.setMem (makeContext 0x500 0x2000 s.mem 0x3000 0x400)
  have made := makeContext_made 0x500 0x2000 s.mem 0x400 own.disjoint
  obtain ⟨x', y, z, cpu, make, run, enter⟩ := exists_start coContextSwap s s' (p := 0x1000) (q := 0x2000)
    (a := 0x8000) convention_fit made.context (by rw [base]; decide)
  obtain ⟨-, pc, -, arg, top, -⟩ := cortexM3_starts 0x504 make (congrArg Cpu.mem cpu)
    own.disjoint run (by simp) (by simp) enter
  exact ⟨_, y, z, .cons make (run.append (.single enter)), pc, arg, top⟩

end Threads

end EventHub.Coroutine.CortexM3
