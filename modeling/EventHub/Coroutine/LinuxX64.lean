import EventHub.Library.Contexts

/-! `coroutine/linux-x64/coroutine.c`. The flags are left out: no caller relies on them. -/

namespace EventHub.Coroutine.LinuxX64
open Library

inductive Reg where
  | rax | rcx | rdx | rbx | rsp | rbp | rsi | rdi
  | r8 | r9 | r10 | r11 | r12 | r13 | r14 | r15
  | rip | mxcsr | x87cw
deriving DecidableEq

def Reg.width : Reg → Nat
  | mxcsr => 4
  | x87cw => 2
  | _ => 8

/-! The instructions, with their operands in the order of the source. -/

section Mnemonics
variable (r base dst : Reg)

def leaq (disp : Int) : Instr 64 Reg := .add dst base disp

def movqTo (disp : Nat) : Instr 64 Reg := .store r base disp

def movqFrom (disp : Nat) : Instr 64 Reg := .load dst base disp

def movq : Instr 64 Reg := .move dst r

def stmxcsr (disp : Nat) : Instr 64 Reg := .store .mxcsr base disp

def fnstcw (disp : Nat) : Instr 64 Reg := .store .x87cw base disp

def ldmxcsr (disp : Nat) : Instr 64 Reg := .load .mxcsr base disp

def fldcw (disp : Nat) : Instr 64 Reg := .load .x87cw base disp

def andq (mask : BitVec 64) : Instr 64 Reg := .and dst dst mask

def leaqLabel (label : BitVec 64) : Instr 64 Reg := .set dst label

def jmp : Instr 64 Reg := .move .rip r

def push : List (Instr 64 Reg) := [.add .rsp .rsp (-8), .store r .rsp 0]

def ret : List (Instr 64 Reg) := [.load .rip .rsp 0, .add .rsp .rsp 8]

end Mnemonics

/-- The body of `co_context_swap`. -/
def coContextSwapBody : List (Instr 64 Reg) :=
  [ leaq .rsp .rsp (-0x38),
    stmxcsr .rsp 0,
    fnstcw .rsp 0x4,
    movqTo .r12 .rsp 0x8,
    movqTo .r13 .rsp 0x10,
    movqTo .r14 .rsp 0x18,
    movqTo .r15 .rsp 0x20,
    movqTo .rbx .rsp 0x28,
    movqTo .rbp .rsp 0x30,
    movqTo .rsp .rsi 0,
    movqFrom .rdx .rsp 0,
    movqFrom .rsp .r8 0x38,
    ldmxcsr .rsp 0,
    fldcw .rsp 0x4,
    movqFrom .rsp .r12 0x8,
    movqFrom .rsp .r13 0x10,
    movqFrom .rsp .r14 0x18,
    movqFrom .rsp .r15 0x20,
    movqFrom .rsp .rbx 0x28,
    movqFrom .rsp .rbp 0x30,
    leaq .rsp .rsp 0x40,
    movq .rdi .rax,
    jmp .r8 ]

/-- `co_context_swap`, with the `call` before it; `rip` is the address behind the `call`. -/
def coContextSwap (s : Cpu 64 Reg.width) : Cpu 64 Reg.width :=
  exec (push .rip ++ coContextSwapBody) s

def convention : Convention Reg where
  sp := .rsp
  pc := .rip
  link := .rip
  arg := .rdi
  fromPtr := .rsi
  toPtr := .rdx
  result := .rax
  kept := [(.mxcsr, 0), (.x87cw, 0x4), (.r12, 0x8), (.r13, 0x10), (.r14, 0x18), (.r15, 0x20),
    (.rbx, 0x28), (.rbp, 0x30)]
  linkOffset := 0x38
  size := 0x40
  pointer := 8

theorem convention_fit : convention.Fit 64 Reg.width where
  frame := by decide
  small := by decide
  address := rfl
  sp := rfl
  pc := rfl
  link := rfl
  result := rfl
  pointers := ⟨rfl, rfl⟩
  apart := by decide

/-- What is loaded on the way back; `r8` takes the return address. -/
def loaded : FrameLayout Reg := (.r8, 0x38) :: convention.kept

theorem coContextSwap_code : push .rip ++ coContextSwapBody =
    (let c := convention
    [.add c.sp c.sp (-8), .store c.link c.sp 0, .add c.sp c.sp (-0x38)] ++
      (c.kept.store c.sp ++ [.store c.sp c.fromPtr 0, .load c.sp c.toPtr 0] ++
        loaded.load c.sp ++ [.add c.sp c.sp 0x40, .move c.result c.arg, .move c.pc .r8])) := rfl

theorem base_add (sp : BitVec 64) : sp + BitVec.ofInt 64 (-8) =
      sp - BitVec.ofNat 64 convention.size + BitVec.ofNat 64 convention.linkOffset ∧
    sp + BitVec.ofInt 64 (-8) + BitVec.ofInt 64 (-0x38) =
      sp - BitVec.ofNat 64 convention.size := by
  have link : BitVec.ofInt 64 (-8) = -BitVec.ofNat 64 convention.size +
    BitVec.ofNat 64 convention.linkOffset := by decide
  have base : BitVec.ofInt 64 (-8) + BitVec.ofInt 64 (-0x38) =
    -BitVec.ofNat 64 convention.size := by decide
  rw [BitVec.add_assoc, base, link, BitVec.sub_eq_add_neg, BitVec.add_assoc]
  exact ⟨rfl, rfl⟩

theorem coContextSwap_switched (s : Cpu 64 Reg.width) :
    convention.Switched s (coContextSwap s) := by
  have fit := convention_fit
  obtain ⟨mem, sp, others⟩ := fit.exec_call (s := s) (by decide) (-8) (-0x38)
  obtain ⟨link, base⟩ := base_add (s.val convention.sp)
  rw [coContextSwap, coContextSwap_code, exec_append]
  apply fit.switched (L := loaded) (M := convention.frame) (q := .r8)
  · rw [sp, base, Convention.base]
  · exact others
  · rw [mem, link]
    rfl
  · exact .refl convention.frame
  · decide
  · decide
  · exact fit.exchanges (by decide)
  · decide
  · decide
  · decide
  · decide
  · rfl
  · exact fit.leaves (by decide) (by decide) (by decide) (by decide) (by decide)

/-! New contexts. -/

section Make
variable (trampoline finish : BitVec 64)

/-- The body of `co_context_make`, up to `trampoline`. -/
def coContextMakeBody : List (Instr 64 Reg) :=
  [ movq .rsi .rax,
    andq .rax (-16),
    leaq .rax .rax (-0x40),
    stmxcsr .rax 0,
    fnstcw .rax 0x4,
    leaqLabel .rcx trampoline,
    movqTo .rcx .rax 0x38,
    leaqLabel .rcx finish,
    movqTo .rcx .rax 0x30,
    movqTo .rdx .rax 0x28 ] ++ ret

/-- `trampoline`. -/
def trampolineBody : List (Instr 64 Reg) := push .rbp ++ [jmp .rbx]

/-- `task->context = co_context_make(stack, stack + stack_size, func)`, with the `call`. -/
def makeContext (slot : BitVec 64) (s : Cpu 64 Reg.width) : Cpu 64 Reg.width :=
  let s' := exec (push .rip ++ coContextMakeBody trampoline finish) s
  s'.setMem (convention.assign s'.mem slot (s'.val .rax))

def made : FrameLayout (Reg ⊕ BitVec 64) :=
  [(.inl .mxcsr, 0), (.inl .x87cw, 0x4), (.inr trampoline, 0x38), (.inr finish, 0x30),
    (.inl .rdx, 0x28)]

def madeBase (s : Cpu 64 Reg.width) : BitVec 64 := (s.val .rsi &&& -16) + BitVec.ofInt 64 (-0x40)

def callWord (s : Cpu 64 Reg.width) : BitVec 64 := s.val .rsp + BitVec.ofInt 64 (-8)

theorem coContextMake_code : push .rip ++ coContextMakeBody trampoline finish =
    [.add .rsp .rsp (-8), .store .rip .rsp 0] ++
      ([.move .rax .rsi, .and .rax .rax (-16), .add .rax .rax (-0x40)] ++
        (FrameLayout.put (made trampoline finish) .rax .rcx ++
          [.load .rip .rsp 0, .add .rsp .rsp 8])) := rfl

theorem trampoline_code : trampolineBody =
    [.add .rsp .rsp (-8), .store .rbp .rsp 0] ++ [.move .rip .rbx] := rfl

variable {trampoline finish} in
theorem made_fits : (made trampoline finish).Fits (Cpu.itemWidth Reg.width .rcx) 0x40 := by
  refine ⟨?_, ?_⟩ <;> simp [made, Cpu.itemWidth, Reg.width]

theorem coContextMake_spec (s : Cpu 64 Reg.width)
    (apart : Disjoint (area (callWord s) 8) (area (madeBase s) 0x40)) :
    let s' := exec (push .rip ++ coContextMakeBody trampoline finish) s
    (∀ x ∉ area (callWord s) 8 ∪ area (madeBase s) 0x40, s'.mem x = s.mem x) ∧
      s'.mem.Holds (made trampoline finish) (madeBase s) (s.item .rcx) ∧
        s'.val .rax = madeBase s ∧ s'.val .rsp = s.val .rsp ∧
          ∀ r, r ≠ .rsp → r ≠ .rax → r ≠ .rcx → s'.regs r = s.regs r := by
  rw [coContextMake_code, exec_append, exec_append, exec_append]
  obtain ⟨mem₁, sp₁, regs₁⟩ := exec_push s .rsp .rip rfl (by decide) (-8)
  generalize exec _ s = s₁ at *
  obtain ⟨mem₂, rax₂, regs₂⟩ := exec_align s₁ .rax .rsi rfl (-16) (-0x40)
  generalize exec _ s₁ = s₂ at *
  obtain ⟨mem₃, regs₃⟩ := exec_put s₂ (made trampoline finish) .rax .rcx (by decide)
    (by simp [made])
  generalize exec _ s₂ = s₃ at *
  obtain ⟨mem₄, rip₄, sp₄, regs₄⟩ := exec_pop s₃ .rsp .rip rfl (by decide) 8
  generalize exec _ s₃ = s₄ at *
  have base : s₂.val .rax = madeBase s := by
    rw [rax₂, Cpu.val, regs₁ _ (by decide)]
    rfl
  have early : ∀ r, r ≠ .rsp → r ≠ .rax → s₂.regs r = s.regs r :=
    fun r sp rax => (regs₂ r rax).trans (regs₁ r sp)
  have items : ∀ slot ∈ made trampoline finish, s₂.item .rcx slot.1 = s.item .rcx slot.1 := by
    simp only [made, List.forall_mem_cons]
    exact ⟨early _ (by decide) (by decide), early _ (by decide) (by decide), rfl, rfl,
      early _ (by decide) (by decide), by simp⟩
  have filled : s₃.mem = (s.mem.write (callWord s) (s.regs .rip)).spill
      (made trampoline finish) (madeBase s) (s.item .rcx) := by
    rw [mem₃, base, mem₂, mem₁, Bytes.spill_congr items]
    rfl
  have sp₃ : s₃.val .rsp = callWord s := by
    rw [Cpu.val, regs₃ _ (by decide), regs₂ _ (by decide)]
    exact sp₁
  have called : s₃.mem.read (callWord s) (Reg.width .rip) = s.regs .rip := by
    rw [filled, Bytes.read_spill_of_disjoint (k := Reg.width .rip) made_fits apart]
    exact Bytes.read_write _ (by decide)
  dsimp only
  rw [mem₄]
  refine ⟨fun x out => ?_, ?_, ?_, ?_, fun r sp rax rcx => ?_⟩
  · rw [filled, Bytes.spill_of_notMem made_fits fun inside => out (.inr inside)]
    exact Bytes.write_of_notMem fun inside => out (.inl inside)
  · rw [filled]
    exact Bytes.spill_holds made_fits (by decide)
  · rw [Cpu.val, regs₄ _ (by decide) (by decide), regs₃ _ (by decide)]
    exact base
  · have back : BitVec.ofInt 64 (-8) + BitVec.ofInt 64 8 = 0#64 := by decide
    rw [sp₄, sp₃, callWord, BitVec.add_assoc, back, BitVec.add_zero]
  · rcases eq_or_ne r .rip with rfl | rip
    · rw [rip₄, sp₃]
      exact called
    · rw [regs₄ r sp rip, regs₃ r rcx, early r sp rax]

theorem makeContext_made (slot : BitVec 64) (s : Cpu 64 Reg.width)
    (apart : Disjoint (area (callWord s) 8) (area (madeBase s) 0x40))
    (own : Disjoint (area slot 8) (area (madeBase s) 0x40)) :
    convention.Made s.mem (makeContext trampoline finish slot s).mem slot (madeBase s)
      (made trampoline finish) (s.item .rcx) (area (callWord s) 8) := by
  obtain ⟨mem, holds, rax, -⟩ := coContextMake_spec trampoline finish s apart
  rw [makeContext]
  generalize exec _ s = s₁ at *
  rw [Cpu.setMem_mem, rax]
  exact convention_fit.made made_fits holds own fun x out =>
    mem x fun inside => out inside.symm

end Make

section Threads
open Threads
variable {T : Type} [DecidableEq T] {slot : T → BitVec 64} {t u : T} {ls : List (Label T)}
  {x x' y z : Threads T 64 Reg.width}

/-- A task that calls `co_context_swap` returns from it when another task swaps to it, whatever
happens in between. -/
theorem x64_returns (leave : Step convention slot coContextSwap x (.switch u) x')
    (run : Run (Step convention slot coContextSwap) x' ls y) (awake : .switch x.running ∉ ls)
    (kept : .drop x.running ∉ ls)
    (enter : Step convention slot coContextSwap y (.switch x.running) z) :
    (∀ r ∈ [.rbx, .rbp, .r12, .r13, .r14, .r15, .mxcsr, .x87cw], z.cpu.regs r = x.cpu.regs r) ∧
      z.cpu.val .rip = x.cpu.val .rip ∧ z.cpu.val .rsp = x.cpu.val .rsp ∧
        z.cpu.val .rax = y.cpu.val .rdi := by
  obtain ⟨regs, rip, rsp, rax⟩ :=
    resumes coContextSwap_switched convention_fit leave run awake kept enter
  refine ⟨fun r mem => ?_, rip, rsp, rax⟩
  have one : ∀ r ∈ [Reg.rbx, .rbp, .r12, .r13, .r14, .r15, .mxcsr, .x87cw],
      ∃ slot ∈ convention.kept, slot.1 = r := by decide
  obtain ⟨slot, inside, rfl⟩ := one r mem
  exact regs slot inside

theorem x64_returns_pair :
    ∃ x y z : Threads Bool 64 Reg.width, Run (Step convention (pair 0x1000 0x2000) coContextSwap)
      x [.switch true, .work, .switch false] z ∧ z.cpu.val .rsp = x.cpu.val .rsp ∧
        z.cpu.val .rip = x.cpu.val .rip ∧ z.cpu.val .rax = y.cpu.val .rdi := by
  obtain ⟨x, x', y, z, first, leave, run, enter⟩ := exists_return (p := 0x1000) (q := 0x2000)
    (a := 0x8000) coContextSwap_switched convention_fit Convention.context_zero (by decide)
  obtain ⟨-, rip, rsp, rax⟩ := x64_returns leave run (by simp) (by simp) (first ▸ enter)
  exact ⟨x, y, z, .cons leave (run.append (.single enter)), rsp, rip, rax⟩

/-- A task whose context has been made starts in `func`, with the argument of the first
`co_context_swap` to it and with `finish` as its return address, at the aligned top of its stack. -/
theorem x64_starts {trampoline finish : BitVec 64}
    (make : Step convention slot coContextSwap x (.make t) x')
    (call : x'.cpu = makeContext trampoline finish (slot t) x.cpu)
    (apart : Disjoint (area (callWord x.cpu) 8) (area (madeBase x.cpu) 0x40))
    (own : Disjoint (area (slot t) 8) (area (madeBase x.cpu) 0x40))
    (run : Run (Step convention slot coContextSwap) x' ls y)
    (awake : .switch t ∉ ls) (kept : .drop t ∉ ls)
    (enter : Step convention slot coContextSwap y (.switch t) z) :
    z.cpu.val .rip = trampoline ∧
    let s := exec trampolineBody z.cpu
    s.val .rip = x.cpu.val .rdx ∧ s.val .rdi = y.cpu.val .rdi ∧
      s.val .rsp + 8#64 = x.cpu.val .rsi &&& -16 ∧ s.mem.read (s.val .rsp) 8 = finish ∧
        s.regs .mxcsr = x.cpu.regs .mxcsr ∧ s.regs .x87cw = x.cpu.regs .x87cw := by
  obtain ⟨regs, rip, rsp, -, rdi⟩ :=
    woken coContextSwap_switched convention_fit run (asleep_of_make make) awake kept enter
  obtain ⟨context, holds, -⟩ := makeContext_made trampoline finish (slot t) x.cpu
    apart own
  rw [call, context] at regs rip rsp
  have rbx : z.cpu.regs .rbx = x.cpu.regs .rdx :=
    (regs (.rbx, 0x28) (by decide)).trans (holds (.inl .rdx, 0x28) (by simp [made]))
  have rbp : z.cpu.regs .rbp = finish.setWidth _ :=
    (regs (.rbp, 0x30) (by decide)).trans (holds (.inr finish, 0x30) (by simp [made]))
  have mxcsr : z.cpu.regs .mxcsr = x.cpu.regs .mxcsr :=
    (regs (.mxcsr, 0) (by decide)).trans (holds (.inl .mxcsr, 0) (by simp [made]))
  have x87cw : z.cpu.regs .x87cw = x.cpu.regs .x87cw :=
    (regs (.x87cw, 0x4) (by decide)).trans (holds (.inl .x87cw, 0x4) (by simp [made]))
  have entry := holds (.inr trampoline, 0x38) (by simp [made])
  refine ⟨rip.trans ((congrArg _ entry).trans (setWidth_setWidth (by decide) _)), ?_⟩
  rw [trampoline_code, exec_append]
  obtain ⟨mem₁, sp₁, regs₁⟩ := exec_push z.cpu .rsp .rbp rfl (by decide) (-8)
  generalize exec _ z.cpu = s₁ at *
  obtain ⟨mem₂, rip₂, regs₂⟩ := exec_jump s₁ .rip .rbx rfl
  generalize exec _ s₁ = s₂ at *
  have top : z.cpu.val .rsp = (x.cpu.val .rsi &&& -16) + BitVec.ofInt 64 (-0x40) +
    BitVec.ofNat 64 0x40 := rsp
  have back : BitVec.ofInt 64 (-0x40) + (BitVec.ofNat 64 0x40 + (BitVec.ofInt 64 (-8) + 8#64)) =
    0#64 := by decide
  have rsp₂ : s₂.val .rsp = z.cpu.val .rsp + BitVec.ofInt 64 (-8) :=
    (congrArg _ (regs₂ .rsp (by decide))).trans sp₁
  have others : ∀ r, r ≠ .rip → r ≠ .rsp → s₂.regs r = z.cpu.regs r :=
    fun r rip rsp => (regs₂ r rip).trans (regs₁ r rsp)
  dsimp only
  refine ⟨?_, ?_, ?_, ?_, ?_, ?_⟩
  · rw [rip₂, Cpu.val, regs₁ _ (by decide), rbx]
    rfl
  · rw [Cpu.val, others _ (by decide) (by decide)]
    exact rdi
  · rw [rsp₂, top, BitVec.add_assoc, BitVec.add_assoc, BitVec.add_assoc, back, BitVec.add_zero]
  · rw [mem₂, mem₁, rsp₂, rbp]
    exact Bytes.read_write _ (by decide)
  · rw [others _ (by decide) (by decide), mxcsr]
  · rw [others _ (by decide) (by decide), x87cw]

theorem x64_starts_first :
    ∃ x y z : Threads Bool 64 Reg.width, Run (Step convention (pair 0x1000 0x2000) coContextSwap)
      x [.make true, .work, .switch true] z ∧
        let s := exec trampolineBody z.cpu
        s.val .rip = 0x400 ∧ s.val .rdi = y.cpu.val .rdi ∧ s.val .rsp + 8#64 = 0x3000 &&& -16 := by
  let s : Cpu 64 Reg.width := convention.ready (fun _ => 0) 0x8048 0x3000 0x400
  obtain ⟨rsp, rsi, rdx⟩ : s.val .rsp = 0x8048 ∧ s.val .rsi = 0x3000 ∧ s.val .rdx = 0x400 :=
    convention_fit.ready_val (fun _ => 0) 0x8048 0x3000 0x400
  have base : madeBase s = 0x2fc0 := by
    rw [madeBase, rsi]
    decide
  have call : Clear (callWord s, 8) (madeBase s, 0x40) := by
    rw [base, callWord, rsp]
    decide
  have own : Clear (0x2000, 8) (madeBase s, 0x40) := by
    rw [base]
    decide
  have made := makeContext_made 0x500 0x600 0x2000 s call.disjoint own.disjoint
  obtain ⟨x', y, z, cpu, make, run, enter⟩ := exists_start coContextSwap s _ (p := 0x1000) (q := 0x2000)
    (a := 0x8000) convention_fit made.context (by rw [base]; decide)
  obtain ⟨-, rip, rdi, top, -⟩ := x64_starts make cpu call.disjoint own.disjoint run
    (by simp) (by simp) enter
  exact ⟨_, y, z, .cons make (run.append (.single enter)), rip.trans rdx, rdi, top.trans (rsi ▸ rfl)⟩

end Threads

end EventHub.Coroutine.LinuxX64
