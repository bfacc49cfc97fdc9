import EventHub.Library.Assembly
import EventHub.Library.Transition

/-! Threads of control that switch by code: the code of a switch leaves the registers that a
caller expects to keep in a frame on the stack of the thread that it leaves, and the address of
the frame in that thread's context. -/

namespace EventHub.Library

/-- What an architecture's switch keeps, and the registers it is called with. -/
structure Convention (R : Type) where
  sp : R
  pc : R
  /-- The address to return to, before the call. -/
  link : R
  arg : R
  fromPtr : R
  toPtr : R
  result : R
  /-- The registers that a callee keeps. -/
  kept : FrameLayout R
  linkOffset : Nat
  size : Nat
  /-- The bytes of a pointer. -/
  pointer : Nat

section Switch
variable {n : Nat} {R : Type} {width : R → Nat}

namespace Convention

def frame (c : Convention R) : FrameLayout R := (c.link, c.linkOffset) :: c.kept

def base (c : Convention R) (s : Cpu n width) : BitVec n := s.val c.sp - BitVec.ofNat n c.size

def context (c : Convention R) (m : Bytes n) (slot : BitVec n) : BitVec n :=
  (m.read slot c.pointer).setWidth n

def assign (c : Convention R) (m : Bytes n) (slot a : BitVec n) : Bytes n :=
  m.write (k := c.pointer) slot (a.setWidth _)

def ready [DecidableEq R] (c : Convention R) (m : Bytes n) (sp p q : BitVec n) : Cpu n width :=
  ((({ regs := fun _ => 0, mem := m } : Cpu n width).setVal c.sp sp).setVal c.fromPtr p).setVal
    c.toPtr q

/-- What a call of the switch does: the frame is written below the stack pointer and its
address into the one context, and everything comes back from the frame that the other context
points to. -/
structure Switched (c : Convention R) (s s' : Cpu n width) : Prop where
  saved : ∃ m : Bytes n, m.Holds c.frame (c.base s) s.regs ∧
    (∀ x ∉ area (c.base s) c.size, m x = s.mem x) ∧
    s'.mem = c.assign m (s.val c.fromPtr) (c.base s)
  kept : ∀ slot ∈ c.kept, s'.regs slot.1 =
    s'.mem.read (c.context s'.mem (s.val c.toPtr) + BitVec.ofNat n slot.2) (width slot.1)
  pc : s'.val c.pc = (s'.mem.read (c.context s'.mem (s.val c.toPtr) + BitVec.ofNat n c.linkOffset)
    (width c.link)).setWidth n
  sp : s'.val c.sp = c.context s'.mem (s.val c.toPtr) + BitVec.ofNat n c.size
  result : s'.val c.result = s.val c.arg
  arg : s'.val c.arg = s.val c.arg

/-- The registers have the widths that addresses need, and the frame has room for them. -/
structure Fit (c : Convention R) (n : Nat) (width : R → Nat) : Prop where
  frame : c.frame.Fits width c.size
  small : c.size ≤ 2 ^ n
  address : 8 * c.pointer = n
  sp : width c.sp = c.pointer
  pc : width c.pc = c.pointer
  link : width c.link = c.pointer
  result : width c.result = c.pointer
  pointers : width c.fromPtr = c.pointer ∧ width c.toPtr = c.pointer
  apart : c.fromPtr ≠ c.sp ∧ c.toPtr ≠ c.sp ∧ c.fromPtr ≠ c.toPtr

def Exchanges [DecidableEq R] (c : Convention R) (n : Nat) (width : R → Nat)
    (code : List (Instr n R)) : Prop :=
  ∀ s : Cpu n width,
    (exec code s).mem = c.assign s.mem (s.val c.fromPtr) (s.val c.sp) ∧
    (exec code s).val c.sp = c.context (exec code s).mem (s.val c.toPtr) ∧
    (exec code s).val c.arg = s.val c.arg

/-- Code that gives up the frame and goes on at the address in `q`. -/
def Leaves [DecidableEq R] (c : Convention R) (n : Nat) (width : R → Nat) (q : R)
    (code : List (Instr n R)) : Prop :=
  ∀ s : Cpu n width,
    (exec code s).mem = s.mem ∧ (exec code s).val c.pc = s.val q ∧
    (exec code s).val c.sp = s.val c.sp + BitVec.ofNat n c.size ∧
    (exec code s).val c.result = s.val c.arg ∧ (exec code s).val c.arg = s.val c.arg ∧
    ∀ slot ∈ c.kept, (exec code s).regs slot.1 = s.regs slot.1

/-- A context of a frame that has been filled with `items`; besides, `others` may be written. -/
structure Made (c : Convention R) {I : Type} {wide : I → Nat} (m m' : Bytes n) (slot a : BitVec n)
    (K : FrameLayout I) (items : (i : I) → BitVec (8 * wide i)) (others : Set (BitVec n)) : Prop where
  context : c.context m' slot = a
  holds : m'.Holds K a items
  rest : ∀ x ∉ area slot c.pointer ∪ area a c.size ∪ others, m' x = m x

section Assign
variable {c : Convention R} {m m₁ : Bytes n} {slot a x : BitVec n}

theorem context_zero : c.context (fun _ => 0) slot = 0 := by
  rw [context, Bytes.read_zero]
  exact BitVec.setWidth_zero ..

theorem assign_of_notMem (out : x ∉ area slot c.pointer) : c.assign m slot a x = m x :=
  Bytes.write_of_notMem out

theorem Fit.context_assign (fit : c.Fit n width) : c.context (c.assign m slot a) slot = a := by
  have short : c.pointer ≤ 2 ^ n := by
    have := Nat.lt_two_pow_self (n := n)
    have := fit.address
    omega
  rw [context, assign, Bytes.read_write _ short]
  exact setWidth_setWidth fit.address _

theorem Fit.made (fit : c.Fit n width) {I : Type} {wide : I → Nat} {K : FrameLayout I}
    {items : (i : I) → BitVec (8 * wide i)} {others : Set (BitVec n)} (fits : K.Fits wide c.size)
    (holds : m₁.Holds K a items) (own : Disjoint (area slot c.pointer) (area a c.size))
    (rest : ∀ x ∉ area a c.size ∪ others, m₁ x = m x) :
    c.Made m (c.assign m₁ slot a) slot a K items others := by
  refine ⟨fit.context_assign, holds.congr fits fun x inside => ?_, fun x out => ?_⟩
  · exact assign_of_notMem (Set.disjoint_right.mp own inside)
  · simp only [Set.mem_union, not_or] at out
    rw [assign_of_notMem out.1.1]
    exact rest x fun inside => inside.elim out.1.2 out.2

theorem Fit.made_clear (fit : c.Fit n width) {K L : FrameLayout R}
    {items : (r : R) → BitVec (8 * width r)} (fits : K.Fits width c.size) (sub : L ⊆ K)
    (once : L.Fits width c.size) (zero : ∀ slot ∈ K, slot ∉ L → items slot.1 = 0)
    (own : Disjoint (area slot c.pointer) (area a c.size)) :
    c.Made m (c.assign ((m.write a (0 : BitVec (8 * c.size))).spill L a items) slot a) slot a K
      items ∅ := by
  refine fit.made fits (Bytes.spill_clear_holds fits fit.small sub once zero) own fun x out => ?_
  rw [Bytes.spill_of_notMem once fun inside => out (.inl inside)]
  exact Bytes.write_of_notMem fun inside => out (.inl inside)

end Assign

section Halves
variable [DecidableEq R] {c : Convention R} (fit : c.Fit n width) {s s₁ : Cpu n width}
include fit

/-- The parts of a switch, from `s₁` on, in which there is room for the frame: the registers
`K` are stored (a call may have stored the return address already), the stack pointers are
exchanged, and the registers `L` loaded. -/
theorem Fit.switched {K L M : FrameLayout R} {mid leave : List (Instr n R)} {q : R}
    (sp : s₁.val c.sp = c.base s) (others : ∀ r, r ≠ c.sp → s₁.regs r = s.regs r)
    (mem : s₁.mem.spill K (c.base s) s.regs = s.mem.spill M (c.base s) s.regs)
    (all : M.Perm c.frame)
    (stored : ∀ slot ∈ K, slot.1 ≠ c.sp) (pointers : c.fromPtr ≠ c.sp ∧ c.toPtr ≠ c.sp ∧
      c.arg ≠ c.sp) (exchanges : c.Exchanges n width mid)
    (loaded : ∀ slot ∈ L, slot.1 ≠ c.sp ∧ slot.1 ≠ c.arg) (once : (L.map Prod.fst).Nodup)
    (kept : ∀ slot ∈ c.kept, slot ∈ L) (link : (q, c.linkOffset) ∈ L)
    (wide : width q = width c.link) (leaves : c.Leaves n width q leave) :
    c.Switched s (exec (K.store c.sp ++ mid ++ L.load c.sp ++ leave) s₁) := by
  have frame : s₁.mem.spill K (s₁.val c.sp) s₁.regs = s.mem.spill M (c.base s) s.regs := by
    rw [Bytes.spill_congr fun slot inside => others _ (stored slot inside), sp, mem]
  have val : ∀ r, r ≠ c.sp → s₁.val r = s.val r := fun r ne => congrArg _ (others r ne)
  rw [exec_append, exec_append, exec_append, exec_store, frame]
  obtain ⟨mem₂, sp₂, arg₂⟩ :=
    exchanges (s₁.setMem (s.mem.spill M (c.base s) s.regs))
  rw [Cpu.setMem_mem, Cpu.setMem_val, Cpu.setMem_val, sp, val _ pointers.1] at mem₂
  rw [Cpu.setMem_val, val _ pointers.2.1] at sp₂
  rw [Cpu.setMem_val, val _ pointers.2.2] at arg₂
  generalize exec mid _ = s₂ at *
  have out : ∀ slot ∈ L, slot.1 ≠ c.sp := fun slot inside => (loaded slot inside).1
  obtain ⟨mem₃, others₃⟩ := exec_load s₂ L out
  have regs₃ : ∀ slot ∈ L, (exec (L.load c.sp) s₂).regs slot.1 =
      s₂.mem.read (s₂.val c.sp + BitVec.ofNat n slot.2) (width slot.1) :=
    fun _ => exec_load_regs s₂ L out once
  have arg₃ : (exec (L.load c.sp) s₂).val c.arg = s.val c.arg :=
    (congrArg _ (others₃ _ fun slot inside => (loaded slot inside).2)).trans arg₂
  have sp₃ : (exec (L.load c.sp) s₂).val c.sp = s₂.val c.sp := congrArg _ (others₃ _ out)
  obtain ⟨mem₄, pc₄, sp₄, result₄, arg₄, kept₄⟩ := leaves (exec (L.load c.sp) s₂)
  rw [mem₃] at mem₄
  have fits := fit.frame.perm all.symm
  refine ⟨⟨_, fun slot inside => Bytes.spill_holds fits fit.small slot (all.mem_iff.mpr inside),
    fun _ => Bytes.spill_of_notMem fits, mem₄.trans mem₂⟩, fun slot inside => ?_, ?_, ?_,
    result₄.trans arg₃, arg₄.trans arg₃⟩
  · rw [kept₄ slot inside, regs₃ slot (kept slot inside), sp₂, mem₄]
  · rw [pc₄, Cpu.val, regs₃ _ link, sp₂, mem₄, wide]
  · rw [sp₄, sp₃, sp₂, mem₄]

theorem Fit.ready_val (m : Bytes n) (sp p q : BitVec n) :
    let s : Cpu n width := c.ready m sp p q
    s.val c.sp = sp ∧ s.val c.fromPtr = p ∧ s.val c.toPtr = q := by
  obtain ⟨fromSp, toSp, distinct⟩ := fit.apart
  refine ⟨?_, ?_, Cpu.setVal_val (by rw [fit.pointers.2, fit.address]) q⟩
  · rw [ready, Cpu.setVal_val_of_ne _ toSp.symm, Cpu.setVal_val_of_ne _ fromSp.symm]
    exact Cpu.setVal_val (by rw [fit.sp, fit.address]) sp
  · rw [ready, Cpu.setVal_val_of_ne _ distinct]
    exact Cpu.setVal_val (by rw [fit.pointers.1, fit.address]) p

theorem Fit.exec_enter (a : Int) :
    let s' := exec [.add c.sp c.sp a] s
    s'.mem = s.mem ∧ s'.val c.sp = s.val c.sp + BitVec.ofInt n a ∧
      ∀ r, r ≠ c.sp → s'.regs r = s.regs r :=
  ⟨rfl, Cpu.setVal_val (by rw [fit.sp, fit.address]) _, fun _ ne => Cpu.setVal_regs_of_ne _ ne⟩

theorem Fit.exec_call (other : c.link ≠ c.sp) (a b : Int) :
    let s' := exec [.add c.sp c.sp a, .store c.link c.sp 0, .add c.sp c.sp b] s
    s'.mem = s.mem.write (s.val c.sp + BitVec.ofInt n a) (s.regs c.link) ∧
      s'.val c.sp = s.val c.sp + BitVec.ofInt n a + BitVec.ofInt n b ∧
        ∀ r, r ≠ c.sp → s'.regs r = s.regs r := by
  have parts : [Instr.add (n := n) c.sp c.sp a, .store c.link c.sp 0, .add c.sp c.sp b] =
      [.add c.sp c.sp a, .store c.link c.sp 0] ++ [.add c.sp c.sp b] := rfl
  rw [parts, exec_append]
  obtain ⟨mem₁, sp₁, others₁⟩ := exec_push s c.sp c.link (by rw [fit.sp, fit.address]) other a
  generalize exec _ s = s₁ at *
  obtain ⟨mem₂, sp₂, others₂⟩ := fit.exec_enter (s := s₁) b
  exact ⟨mem₂.trans mem₁, sp₂.trans (congrArg (· + _) sp₁),
    fun r ne => (others₂ r ne).trans (others₁ r ne)⟩

theorem Fit.exchanges (arg : c.arg ≠ c.sp) :
    c.Exchanges n width [.store c.sp c.fromPtr 0, .load c.sp c.toPtr 0] := by
  intro s
  have zero : ∀ a : BitVec n, a + BitVec.ofNat n 0 = a := fun a => BitVec.add_zero ..
  have written : s.mem.write (s.val c.fromPtr) (s.regs c.sp) =
      c.assign s.mem (s.val c.fromPtr) (s.val c.sp) := by
    rw [Cpu.regs_eq_val (by rw [fit.sp, fit.address]), fit.sp]
    rfl
  simp only [exec_cons, exec_nil, Instr.exec, zero, written, Cpu.setReg_mem]
  refine ⟨rfl, ?_, Cpu.setReg_val_of_ne _ arg⟩
  rw [Cpu.val, Cpu.setReg_regs, context, fit.sp]
  rfl

theorem Fit.exchanges_through {q : R} (scratch : width q = c.pointer) (fromPtr : q ≠ c.fromPtr)
    (toPtr : q ≠ c.toPtr) (arg : c.arg ≠ c.sp) (other : c.arg ≠ q) :
    c.Exchanges n width
      [.move q c.sp, .store q c.fromPtr 0, .load q c.toPtr 0, .move c.sp q] := by
  intro s
  have zero : ∀ a : BitVec n, a + BitVec.ofNat n 0 = a := fun a => BitVec.add_zero ..
  have whole : 8 * width q = n := by rw [scratch, fit.address]
  let s₁ := s.setVal q (s.val c.sp)
  let m := c.assign s.mem (s.val c.fromPtr) (s.val c.sp)
  have fromVal : s₁.val c.fromPtr = s.val c.fromPtr := Cpu.setVal_val_of_ne _ fromPtr.symm
  have toVal : s₁.val c.toPtr = s.val c.toPtr := Cpu.setVal_val_of_ne _ toPtr.symm
  have written : s₁.mem.write (s₁.val c.fromPtr) (s₁.regs q) = m := by
    rw [Cpu.regs_eq_val whole, Cpu.setVal_val whole, scratch, fromVal]
    rfl
  have run : exec [.move q c.sp, .store q c.fromPtr 0, .load q c.toPtr 0, .move c.sp q] s =
      ((s₁.setMem m).setReg q (m.read (s.val c.toPtr) (width q))).setVal c.sp
        ((m.read (s.val c.toPtr) (width q)).setWidth n) := by
    have loaded : ∀ v, ((s₁.setMem m).setReg q v).val q = v.setWidth n :=
      fun v => congrArg _ (Cpu.setReg_regs v)
    simp only [exec_cons, exec_nil, Instr.exec, zero]
    rw [show s.setVal q (s.val c.sp) = s₁ from rfl, written]
    change Cpu.setVal (Cpu.setReg _ q (m.read (s₁.val c.toPtr) _)) _ (Cpu.val (Cpu.setReg _ q
      (m.read (s₁.val c.toPtr) _)) q) = _
    rw [toVal, loaded]
  rw [run]
  refine ⟨rfl, ?_, ?_⟩
  · rw [Cpu.setVal_val (by rw [fit.sp, fit.address]), context, ← scratch]
    rfl
  · rw [Cpu.setVal_val_of_ne _ arg, Cpu.setReg_val_of_ne _ other, Cpu.setMem_val]
    exact Cpu.setVal_val_of_ne _ other

theorem Fit.leaves {a : Int} (size : BitVec.ofInt n a = BitVec.ofNat n c.size) {q : R}
    (own : q ≠ c.sp ∧ q ≠ c.result) (arg : c.arg ≠ c.sp ∧ c.arg ≠ c.result ∧ c.arg ≠ c.pc)
    (apart : c.sp ≠ c.pc ∧ c.result ≠ c.pc ∧ c.sp ≠ c.result)
    (kept : ∀ slot ∈ c.kept, slot.1 ≠ c.sp ∧ slot.1 ≠ c.result ∧ slot.1 ≠ c.pc) :
    c.Leaves n width q [.add c.sp c.sp a, .move c.result c.arg, .move c.pc q] := by
  intro s
  simp only [exec_cons, exec_nil, Instr.exec, size]
  refine ⟨rfl, ?_, ?_, ?_, ?_, fun slot inside => ?_⟩
  · rw [Cpu.setVal_val (by rw [fit.pc, fit.address]), Cpu.setVal_val_of_ne _ own.2,
      Cpu.setVal_val_of_ne _ own.1]
  · rw [Cpu.setVal_val_of_ne _ apart.1, Cpu.setVal_val_of_ne _ apart.2.2,
      Cpu.setVal_val (by rw [fit.sp, fit.address])]
  · rw [Cpu.setVal_val_of_ne _ apart.2.1, Cpu.setVal_val (by rw [fit.result, fit.address]),
      Cpu.setVal_val_of_ne _ arg.1]
  · rw [Cpu.setVal_val_of_ne _ arg.2.2, Cpu.setVal_val_of_ne _ arg.2.1,
      Cpu.setVal_val_of_ne _ arg.1]
  · obtain ⟨sp, result, pc⟩ := kept slot inside
    rw [Cpu.setVal_regs_of_ne _ pc, Cpu.setVal_regs_of_ne _ result, Cpu.setVal_regs_of_ne _ sp]

theorem Fit.leaves_return {a : Int} (size : BitVec.ofInt n a = BitVec.ofNat n c.size) {q : R}
    (own : q ≠ c.sp) (result : c.result = c.arg) (arg : c.arg ≠ c.sp ∧ c.arg ≠ c.pc)
    (apart : c.sp ≠ c.pc) (kept : ∀ slot ∈ c.kept, slot.1 ≠ c.sp ∧ slot.1 ≠ c.pc) :
    c.Leaves n width q [.add c.sp c.sp a, .move c.pc q] := by
  intro s
  simp only [exec_cons, exec_nil, Instr.exec, size]
  have passed : ((s.setVal c.sp (s.val c.sp + BitVec.ofNat n c.size)).setVal c.pc
      ((s.setVal c.sp (s.val c.sp + BitVec.ofNat n c.size)).val q)).val c.arg = s.val c.arg := by
    rw [Cpu.setVal_val_of_ne _ arg.2, Cpu.setVal_val_of_ne _ arg.1]
  refine ⟨rfl, ?_, ?_, result ▸ passed, passed, fun slot inside => ?_⟩
  · rw [Cpu.setVal_val (by rw [fit.pc, fit.address]), Cpu.setVal_val_of_ne _ own]
  · rw [Cpu.setVal_val_of_ne _ apart, Cpu.setVal_val (by rw [fit.sp, fit.address])]
  · obtain ⟨sp, pc⟩ := kept slot inside
    rw [Cpu.setVal_regs_of_ne _ pc, Cpu.setVal_regs_of_ne _ sp]

theorem Fit.leaves_popped {a : Int} (size : BitVec.ofInt n a = BitVec.ofNat n c.size)
    (result : c.result = c.arg) (arg : c.arg ≠ c.sp) (apart : c.pc ≠ c.sp)
    (kept : ∀ slot ∈ c.kept, slot.1 ≠ c.sp) :
    c.Leaves n width c.pc [.add c.sp c.sp a] := by
  intro s
  simp only [exec_cons, exec_nil, Instr.exec, size]
  have passed : (s.setVal c.sp (s.val c.sp + BitVec.ofNat n c.size)).val c.arg = s.val c.arg :=
    Cpu.setVal_val_of_ne _ arg
  refine ⟨rfl, Cpu.setVal_val_of_ne _ apart, ?_, result ▸ passed, passed, fun slot inside => ?_⟩
  · exact Cpu.setVal_val (by rw [fit.sp, fit.address]) _
  · exact Cpu.setVal_regs_of_ne _ (kept slot inside)

end Halves

end Convention

end Switch

structure Threads (T : Type) (n : Nat) {R : Type} (width : R → Nat) where
  cpu : Cpu n width
  running : T
  asleep : T → Bool

namespace Threads

inductive Label (T : Type) where
  | work
  | make (t : T)
  | drop (t : T)
  | switch (t : T)

section Code
variable {T : Type} {n : Nat} {R : Type} {width : R → Nat} [DecidableEq T]

def reserved (c : Convention R) (slot : T → BitVec n) (m : Bytes n) (t : T) : Set (BitVec n) :=
  area (slot t) c.pointer ∪ area (c.context m (slot t)) c.size

/-- Nothing of the sleeping threads is touched. -/
def Spares (c : Convention R) (slot : T → BitVec n) (x : Threads T n width) (m : Bytes n) : Prop :=
  ∀ t, x.asleep t = true → ∀ a ∈ reserved c slot x.cpu.mem t, m a = x.cpu.mem a

/-- The running thread has room for a frame: the frame and the context of the thread are apart,
and nothing of a sleeping thread is in either of them. -/
structure Room (c : Convention R) (slot : T → BitVec n) (x : Threads T n width) : Prop where
  own : Disjoint (area (slot x.running) c.pointer) (area (c.base x.cpu) c.size)
  others : ∀ t, x.asleep t = true → Disjoint (reserved c slot x.cpu.mem t)
    (area (slot x.running) c.pointer ∪ area (c.base x.cpu) c.size)

/-- The steps, where `swap` is the switch: the running thread computes; a thread gets a context,
or loses its own; the running thread switches to a sleeping one. -/
inductive Step (c : Convention R) (slot : T → BitVec n) (swap : Cpu n width → Cpu n width)
    (x : Threads T n width) : Label T → Threads T n width → Prop
  | work {cpu : Cpu n width} : x.Spares c slot cpu.mem → Step c slot swap x .work { x with cpu := cpu }
  | make {t : T} {cpu : Cpu n width} : x.asleep t = false → t ≠ x.running → x.Spares c slot cpu.mem →
      Step c slot swap x (.make t)
        { x with cpu := cpu, asleep := Function.update x.asleep t true }
  | drop {t : T} : x.asleep t = true →
      Step c slot swap x (.drop t) { x with asleep := Function.update x.asleep t false }
  | switch {t : T} : x.asleep t = true → t ≠ x.running →
      x.cpu.val c.fromPtr = slot x.running → x.cpu.val c.toPtr = slot t → x.Room c slot →
      Step c slot swap x (.switch t)
        { cpu := swap x.cpu
          running := t
          asleep := Function.update (Function.update x.asleep x.running true) t false }

end Code

section Facts
variable {T : Type} {n : Nat} {R : Type} {width : R → Nat} {c : Convention R}
  {slot : T → BitVec n} {swap : Cpu n width → Cpu n width} {x x' y y' z : Threads T n width}
  {m m' : Bytes n} {t u : T} {l : Label T} {ls : List (Label T)}

structure Same (c : Convention R) (slot : T → BitVec n) (t : T) (m m' : Bytes n) : Prop where
  context : c.context m' (slot t) = c.context m (slot t)
  bytes : ∀ a ∈ reserved c slot m t, m' a = m a

theorem Same.of_bytes (bytes : ∀ a ∈ reserved c slot m t, m' a = m a) : Same c slot t m m' where
  context := congrArg _ (Bytes.read_congr fun a inside => bytes a (.inl inside))
  bytes := bytes

theorem Same.rfl : Same c slot t m m := ⟨Eq.refl _, fun _ _ => Eq.refl _⟩

theorem Same.trans {m'' : Bytes n} (h : Same c slot t m m') (h' : Same c slot t m' m'') :
    Same c slot t m m'' := by
  refine ⟨h'.context.trans h.context, fun a inside => ?_⟩
  refine (h'.bytes a ?_).trans (h.bytes a inside)
  rw [reserved, h.context]
  exact inside

theorem Same.read (h : Same c slot t m m') {o k : Nat} (fits : o + k ≤ c.size) :
    m'.read (c.context m' (slot t) + BitVec.ofNat n o) k =
      m.read (c.context m (slot t) + BitVec.ofNat n o) k := by
  rw [h.context]
  exact Bytes.read_congr fun a inside => h.bytes a (.inr (area_add_subset fits inside))

section Swap
variable [DecidableEq T] (swaps : ∀ s : Cpu n width, c.Switched s (swap s))
include swaps

theorem swap_mem (s : Cpu n width) {a : BitVec n}
    (out : a ∉ area (s.val c.fromPtr) c.pointer ∪ area (c.base s) c.size) :
    (swap s).mem a = s.mem a := by
  obtain ⟨m, -, frame, mem⟩ := (swaps s).saved
  rw [mem, Convention.assign_of_notMem fun inside => out (.inl inside)]
  exact frame a fun inside => out (.inr inside)

theorem swap_leaves (fit : c.Fit n width) {s : Cpu n width}
    (own : Disjoint (area (s.val c.fromPtr) c.pointer) (area (c.base s) c.size)) :
    c.context (swap s).mem (s.val c.fromPtr) = c.base s ∧
      (swap s).mem.Holds c.frame (c.base s) s.regs := by
  obtain ⟨m, holds, -, mem⟩ := (swaps s).saved
  rw [mem]
  exact ⟨fit.context_assign, holds.congr fit.frame fun a inside =>
    Convention.assign_of_notMem (Set.disjoint_right.mp own inside)⟩

theorem sleeps_step (step : Step c slot swap x l x') (asleep : x.asleep t = true)
    (woken : l ≠ .switch t) (kept : l ≠ .drop t) :
    x'.asleep t = true ∧ Same c slot t x.cpu.mem x'.cpu.mem := by
  cases step with
  | work spares => exact ⟨asleep, .of_bytes (spares t asleep)⟩
  | make fresh _ spares =>
    refine ⟨?_, .of_bytes (spares t asleep)⟩
    dsimp only
    rw [Function.update_apply]
    split
    · rfl
    · exact asleep
  | @drop u _ =>
    have ne : t ≠ u := fun eq => kept (eq ▸ rfl)
    exact ⟨(Function.update_of_ne ne _ _).trans asleep, .rfl⟩
  | @switch u _ _ fromPtr _ room =>
    have ne : t ≠ u := fun eq => woken (eq ▸ rfl)
    constructor
    · dsimp only
      rw [Function.update_of_ne ne, Function.update_apply]
      split
      · rfl
      · exact asleep
    · refine .of_bytes fun a inside => swap_mem swaps x.cpu ?_
      rw [fromPtr]
      exact Set.disjoint_left.mp (room.others t asleep) inside

theorem sleeps_run (run : Run (Step c slot swap) x ls y) (asleep : x.asleep t = true)
    (woken : .switch t ∉ ls) (kept : .drop t ∉ ls) :
    y.asleep t = true ∧ Same c slot t x.cpu.mem y.cpu.mem := by
  induction run with
  | nil => exact ⟨asleep, .rfl⟩
  | snoc _ last ih =>
    simp only [List.mem_append, List.mem_singleton, not_or] at woken kept
    obtain ⟨before, same⟩ := ih woken.1 kept.1
    obtain ⟨after, same'⟩ := sleeps_step swaps last before (Ne.symm woken.2) (Ne.symm kept.2)
    exact ⟨after, same.trans same'⟩

omit swaps in
theorem asleep_of_make (step : Step c slot swap x (.make t) x') : x'.asleep t = true := by
  cases step
  exact Function.update_self ..

theorem woken (fit : c.Fit n width)
    (run : Run (Step c slot swap) x ls y) (asleep : x.asleep t = true)
    (awake : .switch t ∉ ls) (kept : .drop t ∉ ls) (step : Step c slot swap y (.switch t) z) :
    (∀ s ∈ c.kept, z.cpu.regs s.1 = x.cpu.mem.read
      (c.context x.cpu.mem (slot t) + BitVec.ofNat n s.2) (width s.1)) ∧
    z.cpu.val c.pc = (x.cpu.mem.read
      (c.context x.cpu.mem (slot t) + BitVec.ofNat n c.linkOffset) (width c.link)).setWidth n ∧
    z.cpu.val c.sp = c.context x.cpu.mem (slot t) + BitVec.ofNat n c.size ∧
    z.cpu.val c.result = y.cpu.val c.arg ∧ z.cpu.val c.arg = y.cpu.val c.arg := by
  obtain ⟨sleeping, same⟩ := sleeps_run swaps run asleep awake kept
  cases step with
  | switch _ _ fromPtr toPtr room =>
    have across : Same c slot t y.cpu.mem (swap y.cpu).mem := by
      refine .of_bytes fun a inside => swap_mem swaps y.cpu ?_
      rw [fromPtr]
      exact Set.disjoint_left.mp (room.others t sleeping) inside
    have all := same.trans across
    have switched := swaps y.cpu
    refine ⟨fun s mem => ?_, ?_, ?_, switched.result, switched.arg⟩
    · refine (switched.kept s mem).trans ?_
      rw [toPtr]
      exact all.read (fit.frame.1 s (List.mem_cons_of_mem _ mem))
    · refine switched.pc.trans ?_
      rw [toPtr]
      exact congrArg _ (all.read (fit.frame.1 (c.link, c.linkOffset) (by simp [Convention.frame])))
    · refine switched.sp.trans ?_
      rw [toPtr, all.context]

/-- A thread whose context has been made starts with the registers that its frame was filled
with. -/
theorem starts (fit : c.Fit n width) {K : FrameLayout R} {a : BitVec n} {others : Set (BitVec n)}
    {items : (r : R) → BitVec (8 * width r)} (asleep : x.asleep t = true)
    (made : c.Made m x.cpu.mem (slot t) a K items others)
    (run : Run (Step c slot swap) x ls y) (awake : .switch t ∉ ls) (kept : .drop t ∉ ls)
    (enter : Step c slot swap y (.switch t) z) :
    (∀ s ∈ c.kept, s ∈ K → z.cpu.regs s.1 = items s.1) ∧
    ((c.link, c.linkOffset) ∈ K → z.cpu.val c.pc = (items c.link).setWidth n) ∧
    z.cpu.val c.sp = a + BitVec.ofNat n c.size ∧ z.cpu.val c.arg = y.cpu.val c.arg := by
  obtain ⟨regs, pc, sp, -, arg⟩ := woken swaps fit run asleep awake kept enter
  rw [made.context] at regs pc sp
  exact ⟨fun s mem inside => (regs s mem).trans (made.holds s inside),
    fun inside => pc.trans (congrArg _ (made.holds (c.link, c.linkOffset) inside)), sp, arg⟩

/-- A thread that switches away and is switched to again returns from its call, with the
registers that it had then. -/
theorem resumes (fit : c.Fit n width)
    (leave : Step c slot swap x (.switch u) x') (run : Run (Step c slot swap) x' ls y)
    (awake : .switch x.running ∉ ls) (kept : .drop x.running ∉ ls)
    (enter : Step c slot swap y (.switch x.running) z) :
    (∀ s ∈ c.kept, z.cpu.regs s.1 = x.cpu.regs s.1) ∧
    z.cpu.val c.pc = x.cpu.val c.link ∧ z.cpu.val c.sp = x.cpu.val c.sp ∧
    z.cpu.val c.result = y.cpu.val c.arg := by
  cases leave with
  | switch _ ne fromPtr _ room =>
    have asleep : Function.update (Function.update x.asleep x.running true) u false x.running =
        true := by
      rw [Function.update_of_ne (Ne.symm ne), Function.update_self]
    obtain ⟨regs, pc, sp, result, -⟩ := woken swaps fit run asleep awake kept enter
    obtain ⟨context, holds⟩ := swap_leaves swaps fit (s := x.cpu) (fromPtr ▸ room.own)
    rw [fromPtr] at context
    dsimp only at regs pc sp
    rw [context] at regs pc sp
    refine ⟨fun s mem => ?_, ?_, ?_, result⟩
    · exact (regs s mem).trans (holds s (List.mem_cons_of_mem _ mem))
    · exact pc.trans (congrArg _ (holds (c.link, c.linkOffset) (by simp [Convention.frame])))
    · rw [sp, Convention.base, BitVec.sub_add_cancel]

end Swap

section Exists
variable [DecidableEq T]

theorem exists_switch (swap : Cpu n width → Cpu n width) {s : Cpu n width}
    (asleep : x.asleep t = true) (ne : t ≠ x.running)
    (mem : s.mem = x.cpu.mem) (fromPtr : s.val c.fromPtr = slot x.running)
    (toPtr : s.val c.toPtr = slot t) (room : Room c slot { x with cpu := s }) :
    ∃ y, Run (Step c slot swap) x [.work] y ∧
      Step c slot swap y (.switch t)
        { cpu := swap s
          running := t
          asleep := Function.update (Function.update x.asleep x.running true) t false } :=
  ⟨{ x with cpu := s }, .single (.work fun _ _ a _ => congrFun mem a),
    .switch asleep ne fromPtr toPtr room⟩

def pair (p q : BitVec n) : Bool → BitVec n := fun t => bif t then q else p

def Apart (c : Convention R) (p q a b : BitVec n) : Prop :=
  [(p, c.pointer), (q, c.pointer), (a, c.size), (b, c.size)].Pairwise Clear

instance (c : Convention R) (p q a b : BitVec n) : Decidable (Apart c p q a b) :=
  inferInstanceAs (Decidable (List.Pairwise _ _))

variable [DecidableEq R] {p q a b : BitVec n}

omit [DecidableEq T] [DecidableEq R] in
theorem Apart.disjoint (apart : Apart c p q a b) :
    Disjoint (area p c.pointer) (area a c.size) ∧ Disjoint (area q c.pointer) (area b c.size) ∧
      Disjoint (area q c.pointer ∪ area b c.size) (area p c.pointer ∪ area a c.size) := by
  simp only [Apart, List.pairwise_cons, List.forall_mem_cons] at apart
  obtain ⟨⟨slots, near, far, -⟩, ⟨far', near', -⟩, ⟨frames, -⟩, -⟩ := apart
  refine ⟨near.disjoint, near'.disjoint, ?_⟩
  simp only [Set.disjoint_union_left, Set.disjoint_union_right]
  exact ⟨⟨slots.disjoint.symm, far.disjoint.symm⟩, far'.disjoint, frames.disjoint.symm⟩

omit [DecidableEq T] [DecidableEq R] in
theorem room (sp : x.cpu.val c.sp = a + BitVec.ofNat n c.size) (own : slot x.running = p)
    (only : ∀ t, x.asleep t = true → slot t = q) (context : c.context x.cpu.mem q = b)
    (apart : Apart c p q a b) : x.Room c slot := by
  obtain ⟨near, -, far⟩ := apart.disjoint
  have base : c.base x.cpu = a := by rw [Convention.base, sp, BitVec.add_sub_cancel]
  refine ⟨by rwa [own, base], fun t asleep => ?_⟩
  rwa [reserved, only t asleep, own, base, context]

omit [DecidableEq T] in
theorem left_ready (swaps : ∀ s : Cpu n width, c.Switched s (swap s)) (fit : c.Fit n width)
    (apart : Apart c p q a b) (r : BitVec n) :
    c.context (swap (c.ready m (a + BitVec.ofNat n c.size) p r)).mem p = a := by
  obtain ⟨sp, fromPtr, -⟩ := fit.ready_val m (a + BitVec.ofNat n c.size) p r
  generalize c.ready m (a + BitVec.ofNat n c.size) p r = s at *
  have base : c.base s = a := by rw [Convention.base, sp, BitVec.add_sub_cancel]
  have left := (swap_leaves swaps fit (s := s) (by rw [fromPtr, base]; exact apart.disjoint.1)).1
  rwa [fromPtr, base] at left

omit [DecidableEq T] [DecidableEq R] in
theorem Apart.symm (apart : Apart c p q a b) : Apart c q p b a := by
  simp only [Apart, List.pairwise_cons, List.forall_mem_cons] at apart ⊢
  obtain ⟨⟨slots, near, far, -⟩, ⟨far', near', -⟩, ⟨frames, -⟩, -⟩ := apart
  exact ⟨⟨slots.symm, near', far', by simp⟩, ⟨far, near, by simp⟩, ⟨frames.symm, by simp⟩,
    by simp, .nil⟩

theorem exists_return (swaps : ∀ s : Cpu n width, c.Switched s (swap s)) (fit : c.Fit n width)
    (context : c.context m q = b) (apart : Apart c p q a b) :
    ∃ x x' y z : Threads Bool n width, x.running = false ∧
      Step c (pair p q) swap x (.switch true) x' ∧
        Run (Step c (pair p q) swap) x' [.work] y ∧ Step c (pair p q) swap y (.switch false) z := by
  obtain ⟨sp, fromPtr, toPtr⟩ := fit.ready_val m (a + BitVec.ofNat n c.size) p q
  let s : Cpu n width := c.ready m (a + BitVec.ofNat n c.size) p q
  obtain ⟨sp', fromPtr', toPtr'⟩ := fit.ready_val (swap s).mem (b + BitVec.ofNat n c.size) q p
  let s' : Cpu n width := c.ready (swap s).mem (b + BitVec.ofNat n c.size) q p
  let x' : Threads Bool n width :=
    ⟨swap s, true, Function.update (Function.update id false true) true false⟩
  have first : Room c (pair p q) (⟨s, false, id⟩ : Threads Bool n width) := by
    refine room sp rfl (fun t asleep => ?_) context apart
    cases (asleep : t = true)
    rfl
  have second : Room c (pair p q) { x' with cpu := s' } := by
    refine room sp' rfl (fun t asleep => ?_) (left_ready swaps fit apart q) apart.symm
    cases t with
    | true => cases asleep
    | false => rfl
  obtain ⟨y, run, enter⟩ := exists_switch swap (t := false) (x := x') (s := s') rfl
    Bool.false_ne_true rfl fromPtr' toPtr' second
  exact ⟨⟨s, false, id⟩, x', y, _, rfl, .switch rfl Bool.false_ne_true.symm fromPtr toPtr first,
    run, enter⟩

theorem exists_start (swap : Cpu n width → Cpu n width) (s s' : Cpu n width)
    (fit : c.Fit n width) (context : c.context s'.mem q = b)
    (apart : Apart c p q a b) :
    ∃ x' y z : Threads Bool n width, x'.cpu = s' ∧
      Step c (pair p q) swap ⟨s, false, fun _ => false⟩ (.make true) x' ∧
        Run (Step c (pair p q) swap) x' [.work] y ∧ Step c (pair p q) swap y (.switch true) z := by
  obtain ⟨sp, fromPtr, toPtr⟩ := fit.ready_val s'.mem (a + BitVec.ofNat n c.size) p q
  let s₁ : Cpu n width := c.ready s'.mem (a + BitVec.ofNat n c.size) p q
  let x' : Threads Bool n width := ⟨s', false, Function.update (fun _ => false) true true⟩
  have ready : Room c (pair p q) { x' with cpu := s₁ } := by
    refine room sp rfl (fun t asleep => ?_) context apart
    cases t with
    | false => cases asleep
    | true => rfl
  obtain ⟨y, run, enter⟩ := exists_switch swap (t := true) (x := x') (s := s₁) rfl
    Bool.false_ne_true.symm rfl fromPtr toPtr ready
  refine ⟨x', y, _, rfl, ?_, run, enter⟩
  exact .make rfl Bool.false_ne_true.symm fun _ asleep => nomatch asleep

end Exists

end Facts

end Threads

end EventHub.Library
