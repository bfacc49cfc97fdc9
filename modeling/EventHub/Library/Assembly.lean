import EventHub.Library.Bytes
import Mathlib.Data.List.Nodup
import Mathlib.Data.List.Pairwise
import Mathlib.Logic.Function.Basic

/-! Straight-line machine code over registers of different widths and byte-addressed memory.
The program counter is one of the registers: jumps move to it, and the other instructions of a
piece of code follow one another. -/

namespace EventHub.Library

/-- The registers `r` of `width r` bytes, and memory with addresses of `n` bits. -/
structure Cpu (n : Nat) {R : Type} (width : R → Nat) where
  regs : (r : R) → BitVec (8 * width r)
  mem : Bytes n

inductive Instr (n : Nat) (R : Type) where
  | set (dst : R) (v : BitVec n)
  | add (dst src : R) (imm : Int)
  | and (dst src : R) (mask : BitVec n)
  | move (dst src : R)
  | store (src base : R) (offset : Nat)
  | load (dst base : R) (offset : Nat)

abbrev FrameLayout (R : Type) := List (R × Nat)

section Code
variable {n : Nat} {R : Type} {width : R → Nat}

namespace Cpu

def val (s : Cpu n width) (r : R) : BitVec n := (s.regs r).setWidth n

def setReg [DecidableEq R] (s : Cpu n width) (r : R) (v : BitVec (8 * width r)) : Cpu n width :=
  { s with regs := Function.update s.regs r v }

def setMem (s : Cpu n width) (m : Bytes n) : Cpu n width := { s with mem := m }

def setVal [DecidableEq R] (s : Cpu n width) (r : R) (v : BitVec n) : Cpu n width :=
  s.setReg r (v.setWidth _)

/-- The width of a register, or of a constant that goes through the register `q`. -/
def itemWidth (width : R → Nat) (q : R) : R ⊕ BitVec n → Nat
  | .inl r => width r
  | .inr _ => width q

def item (s : Cpu n width) (q : R) : (i : R ⊕ BitVec n) → BitVec (8 * itemWidth width q i)
  | .inl r => s.regs r
  | .inr v => v.setWidth _

end Cpu

def Instr.exec [DecidableEq R] (s : Cpu n width) : Instr n R → Cpu n width
  | set dst v => s.setVal dst v
  | add dst src imm => s.setVal dst (s.val src + BitVec.ofInt n imm)
  | and dst src mask => s.setVal dst (s.val src &&& mask)
  | move dst src => s.setVal dst (s.val src)
  | store src base offset =>
    s.setMem (s.mem.write (s.val base + BitVec.ofNat n offset) (s.regs src))
  | load dst base offset =>
    s.setReg dst (s.mem.read (s.val base + BitVec.ofNat n offset) (width dst))

def exec [DecidableEq R] (code : List (Instr n R)) (s : Cpu n width) : Cpu n width :=
  code.foldl Instr.exec s

namespace FrameLayout

def store (L : FrameLayout R) (base : R) : List (Instr n R) :=
  L.map fun slot => .store slot.1 base slot.2

def load (L : FrameLayout R) (base : R) : List (Instr n R) :=
  L.map fun slot => .load slot.1 base slot.2

/-- Registers and constants are put into a frame, the constants by way of the register `q`. -/
def put (L : FrameLayout (R ⊕ BitVec n)) (base q : R) : List (Instr n R) :=
  L.flatMap fun
    | (.inl r, o) => [.store r base o]
    | (.inr v, o) => [.set q v, .store q base o]

/-- The slots lie one apart from the other, in the first `size` bytes. -/
def Fits (width : R → Nat) (L : FrameLayout R) (size : Nat) : Prop :=
  (∀ slot ∈ L, slot.2 + width slot.1 ≤ size) ∧
    L.Pairwise fun s t => s.2 + width s.1 ≤ t.2 ∨ t.2 + width t.1 ≤ s.2

instance (L : FrameLayout R) (size : Nat) : Decidable (L.Fits width size) :=
  inferInstanceAs (Decidable (_ ∧ _))

end FrameLayout

namespace Bytes

/-- The registers lie in the frame at `a`. -/
def Holds (m : Bytes n) (L : FrameLayout R) (a : BitVec n) (regs : (r : R) → BitVec (8 * width r)) :
    Prop :=
  ∀ slot ∈ L, m.read (a + BitVec.ofNat n slot.2) (width slot.1) = regs slot.1

/-- The registers are written into the frame at `a`. -/
def spill (m : Bytes n) (L : FrameLayout R) (a : BitVec n) (regs : (r : R) → BitVec (8 * width r)) :
    Bytes n :=
  L.foldl (fun m slot => m.write (a + BitVec.ofNat n slot.2) (regs slot.1)) m

end Bytes

end Code

section Facts
variable {n : Nat} {R : Type} {width : R → Nat} {L K : FrameLayout R} {size : Nat}
  {m m' : Bytes n} {a x : BitVec n} {regs : (r : R) → BitVec (8 * width r)} {s : Cpu n width}
  {base r : R}

theorem FrameLayout.Fits.perm (h : L.Fits width size) (p : L.Perm K) : K.Fits width size := by
  refine ⟨fun slot mem => h.1 slot (p.mem_iff.mpr mem), (p.pairwise_iff ?_).mp h.2⟩
  exact fun apart => apart.symm

theorem setWidth_setWidth {k l : Nat} (wide : k = l) (v : BitVec l) :
    (v.setWidth k).setWidth l = v :=
  (BitVec.setWidth_setWidth_of_le _ wide.ge).trans (BitVec.setWidth_eq _)

namespace Bytes

theorem Holds.congr (h : m.Holds L a regs) (fits : L.Fits width size)
    (same : ∀ x ∈ area a size, m' x = m x) : m'.Holds L a regs := by
  intro slot mem
  rw [← h slot mem]
  exact read_congr fun x inside => same x (area_add_subset (fits.1 slot mem) inside)

theorem spill_of_notMem (fits : L.Fits width size) (out : x ∉ area a size) :
    m.spill L a regs x = m x := by
  induction L generalizing m with
  | nil => rfl
  | cons slot L ih =>
    have here : x ∉ area (a + BitVec.ofNat n slot.2) (width slot.1) := fun inside =>
      out (area_add_subset (fits.1 slot (by simp)) inside)
    have rest : FrameLayout.Fits width L size :=
      ⟨fun t mem => fits.1 t (by simp [mem]), (List.pairwise_cons.mp fits.2).2⟩
    exact (ih rest).trans (write_of_notMem here)

theorem read_spill_of_disjoint {b : BitVec n} {k : Nat} (fits : L.Fits width size)
    (apart : Disjoint (area b k) (area a size)) : (m.spill L a regs).read b k = m.read b k :=
  read_congr fun _ inside => spill_of_notMem fits (Set.disjoint_left.mp apart inside)

theorem spill_congr {regs' : (r : R) → BitVec (8 * width r)}
    (same : ∀ slot ∈ L, regs slot.1 = regs' slot.1) : m.spill L a regs = m.spill L a regs' := by
  induction L generalizing m with
  | nil => rfl
  | cons slot L ih =>
    rw [spill, List.foldl_cons, same slot (by simp)]
    exact ih fun t mem => same t (by simp [mem])

theorem read_spill_of_apart {o k : Nat} (inside : o + k ≤ 2 ^ n)
    (fits : ∀ t ∈ L, t.2 + width t.1 ≤ 2 ^ n)
    (apart : ∀ t ∈ L, t.2 + width t.1 ≤ o ∨ o + k ≤ t.2) :
    (m.spill L a regs).read (a + BitVec.ofNat n o) k = m.read (a + BitVec.ofNat n o) k := by
  induction L generalizing m with
  | nil => rfl
  | cons t L ih =>
    refine (ih (fun u mem => fits u (by simp [mem])) (fun u mem => apart u (by simp [mem]))).trans ?_
    apply read_write_of_disjoint
    rcases apart t (by simp) with before | behind
    · exact area_disjoint before inside
    · exact (area_disjoint behind (fits t (by simp))).symm

theorem spill_holds (fits : L.Fits width size) (small : size ≤ 2 ^ n) :
    (m.spill L a regs).Holds L a regs := by
  induction L generalizing m with
  | nil => exact fun _ mem => absurd mem (List.not_mem_nil)
  | cons t L ih =>
    obtain ⟨apart, rest⟩ := List.pairwise_cons.mp fits.2
    have inside : ∀ u ∈ t :: L, u.2 + width u.1 ≤ 2 ^ n := fun u mem => (fits.1 u mem).trans small
    intro slot mem
    rcases List.mem_cons.mp mem with rfl | mem
    · have wide := inside slot (by simp)
      refine (read_spill_of_apart wide (fun u mem => inside u (by simp [mem]))
        fun u mem => (apart u mem).symm).trans ?_
      exact read_write _ (by omega)
    · exact ih ⟨fun u mem => fits.1 u (by simp [mem]), rest⟩ slot mem

theorem spill_clear_holds (fits : K.Fits width size) (small : size ≤ 2 ^ n) (sub : L ⊆ K)
    (once : L.Fits width size) (zero : ∀ slot ∈ K, slot ∉ L → regs slot.1 = 0) :
    ((m.write a (0 : BitVec (8 * size))).spill L a regs).Holds K a regs := by
  have : Std.Symm fun s t : R × Nat => s.2 + width s.1 ≤ t.2 ∨ t.2 + width t.1 ≤ s.2 :=
    ⟨fun _ _ apart => apart.symm⟩
  intro slot inside
  by_cases mem : slot ∈ L
  · exact spill_holds once small slot mem
  · have apart : ∀ t ∈ L, t.2 + width t.1 ≤ slot.2 ∨ slot.2 + width slot.1 ≤ t.2 := fun t there =>
      fits.2.forall (sub there) inside fun eq => mem (eq ▸ there)
    have whole := fits.1 slot inside
    rw [zero slot inside mem, read_spill_of_apart (whole.trans small)
      (fun t there => (fits.1 t (sub there)).trans small) apart]
    exact read_write_zero whole

end Bytes

variable [DecidableEq R]

@[simp] theorem exec_nil : exec [] s = s := rfl

@[simp] theorem exec_cons (i : Instr n R) (code : List (Instr n R)) :
    exec (i :: code) s = exec code (i.exec s) := rfl

theorem exec_append (c d : List (Instr n R)) : exec (c ++ d) s = exec d (exec c s) :=
  List.foldl_append

namespace Cpu

section
variable (s)

omit [DecidableEq R] in
@[simp] theorem setMem_regs (m : Bytes n) (r : R) : (s.setMem m).regs r = s.regs r := rfl

omit [DecidableEq R] in
@[simp] theorem setMem_val (m : Bytes n) (r : R) : (s.setMem m).val r = s.val r := rfl

omit [DecidableEq R] in
@[simp] theorem setMem_mem (m : Bytes n) : (s.setMem m).mem = m := rfl

end

@[simp] theorem setReg_mem (v : BitVec (8 * width r)) : (s.setReg r v).mem = s.mem := rfl

@[simp] theorem setVal_mem (v : BitVec n) : (s.setVal r v).mem = s.mem := rfl

theorem setReg_regs (v : BitVec (8 * width r)) : (s.setReg r v).regs r = v :=
  Function.update_self ..

theorem setReg_regs_of_ne (v : BitVec (8 * width r)) {q : R} (ne : q ≠ r) :
    (s.setReg r v).regs q = s.regs q :=
  Function.update_of_ne ne ..

theorem setReg_val_of_ne (v : BitVec (8 * width r)) {q : R} (ne : q ≠ r) :
    (s.setReg r v).val q = s.val q :=
  congrArg _ (setReg_regs_of_ne v ne)

theorem setVal_regs_of_ne (v : BitVec n) {q : R} (ne : q ≠ r) :
    (s.setVal r v).regs q = s.regs q :=
  setReg_regs_of_ne _ ne

theorem setVal_val_of_ne (v : BitVec n) {q : R} (ne : q ≠ r) : (s.setVal r v).val q = s.val q :=
  setReg_val_of_ne _ ne

omit [DecidableEq R] in
theorem regs_eq_val (wide : 8 * width r = n) : s.regs r = (s.val r).setWidth _ :=
  (setWidth_setWidth wide.symm _).symm

theorem setVal_val (wide : 8 * width r = n) (v : BitVec n) : (s.setVal r v).val r = v := by
  rw [val, setVal, setReg_regs]
  exact setWidth_setWidth wide _

end Cpu

theorem exec_store (L : FrameLayout R) :
    exec (L.store base) s = s.setMem (s.mem.spill L (s.val base) s.regs) := by
  induction L generalizing s with
  | nil => rfl
  | cons slot L ih => exact ih

section Load
variable (s)

theorem exec_load (L : FrameLayout R) (out : ∀ slot ∈ L, slot.1 ≠ base) :
    (exec (L.load base) s).mem = s.mem ∧
      ∀ r, (∀ slot ∈ L, slot.1 ≠ r) → (exec (L.load base) s).regs r = s.regs r := by
  induction L generalizing s with
  | nil => exact ⟨rfl, fun _ _ => rfl⟩
  | cons slot L ih =>
    obtain ⟨mem, others⟩ := ih ((Instr.load slot.1 base slot.2).exec s)
      fun t mem => out t (by simp [mem])
    refine ⟨mem, fun r apart => (others r fun t mem => apart t (by simp [mem])).trans ?_⟩
    exact Cpu.setReg_regs_of_ne _ (apart slot (by simp)).symm

theorem exec_load_regs (L : FrameLayout R) (out : ∀ slot ∈ L, slot.1 ≠ base)
    (once : (L.map Prod.fst).Nodup) {slot : R × Nat} (mem : slot ∈ L) :
    (exec (L.load base) s).regs slot.1 =
      s.mem.read (s.val base + BitVec.ofNat n slot.2) (width slot.1) := by
  induction L generalizing s with
  | nil => cases mem
  | cons t L ih =>
    obtain ⟨new, once⟩ := List.nodup_cons.mp once
    have later : ∀ u ∈ L, u.1 ≠ base := fun u mem => out u (by simp [mem])
    rcases List.mem_cons.mp mem with rfl | mem
    · have rest := (exec_load ((Instr.load slot.1 base slot.2).exec s) L later).2 slot.1
        fun u mem eq => new (eq ▸ List.mem_map_of_mem mem)
      exact rest.trans (Cpu.setReg_regs _)
    · refine (ih ((Instr.load t.1 base t.2).exec s) later once mem).trans ?_
      have same : ((Instr.load t.1 base t.2).exec s).val base = s.val base :=
        congrArg _ (Cpu.setReg_regs_of_ne _ (out t (by simp)).symm)
      rw [same]
      rfl

end Load

theorem exec_align (s : Cpu n width) (dst src : R) (wide : 8 * width dst = n) (mask : BitVec n) (a : Int) :
    let s' := exec [.move dst src, .and dst dst mask, .add dst dst a] s
    s'.mem = s.mem ∧ s'.val dst = (s.val src &&& mask) + BitVec.ofInt n a ∧
      ∀ r, r ≠ dst → s'.regs r = s.regs r := by
  simp only [exec_cons, exec_nil, Instr.exec]
  refine ⟨rfl, ?_, fun r ne => ?_⟩
  · rw [Cpu.setVal_val wide, Cpu.setVal_val wide, Cpu.setVal_val wide]
  · rw [Cpu.setVal_regs_of_ne _ ne, Cpu.setVal_regs_of_ne _ ne, Cpu.setVal_regs_of_ne _ ne]

section Stack
variable (s) (sp r : R) (wide : 8 * width sp = n)
include wide

theorem exec_push (other : r ≠ sp) (a : Int) :
    let s' := exec [.add sp sp a, .store r sp 0] s
    s'.mem = s.mem.write (s.val sp + BitVec.ofInt n a) (s.regs r) ∧
      s'.val sp = s.val sp + BitVec.ofInt n a ∧ ∀ q, q ≠ sp → s'.regs q = s.regs q := by
  have top := Cpu.setVal_val (s := s) wide (s.val sp + BitVec.ofInt n a)
  simp only [exec_cons, exec_nil, Instr.exec]
  refine ⟨?_, top, fun q ne => Cpu.setVal_regs_of_ne _ ne⟩
  rw [Cpu.setMem_mem, Cpu.setVal_mem, top, Cpu.setVal_regs_of_ne _ other]
  exact congrArg (s.mem.write · _) (BitVec.add_zero ..)

theorem exec_pop (other : r ≠ sp) (a : Int) :
    let s' := exec [.load r sp 0, .add sp sp a] s
    s'.mem = s.mem ∧ s'.regs r = s.mem.read (s.val sp) (width r) ∧
      s'.val sp = s.val sp + BitVec.ofInt n a ∧
        ∀ q, q ≠ sp → q ≠ r → s'.regs q = s.regs q := by
  have zero : s.val sp + BitVec.ofNat n 0 = s.val sp := BitVec.add_zero ..
  simp only [exec_cons, exec_nil, Instr.exec, zero]
  refine ⟨rfl, ?_, ?_, fun q apart ne => ?_⟩
  · rw [Cpu.setVal_regs_of_ne _ other, Cpu.setReg_regs]
  · rw [Cpu.setVal_val wide, Cpu.setReg_val_of_ne _ other.symm]
  · rw [Cpu.setVal_regs_of_ne _ apart, Cpu.setReg_regs_of_ne _ ne]

end Stack

theorem exec_jump (s : Cpu n width) (pc q : R) (wide : 8 * width pc = n) :
    let s' := exec [.move pc q] s
    s'.mem = s.mem ∧ s'.val pc = s.val q ∧ ∀ r, r ≠ pc → s'.regs r = s.regs r :=
  ⟨rfl, Cpu.setVal_val wide _, fun _ ne => Cpu.setVal_regs_of_ne _ ne⟩

theorem exec_put (s : Cpu n width) (L : FrameLayout (R ⊕ BitVec n)) (base q : R) (own : base ≠ q)
    (unused : ∀ slot ∈ L, slot.1 ≠ .inl q) :
    let s' := exec (L.put base q) s
    s'.mem = s.mem.spill L (s.val base) (s.item q) ∧ ∀ r, r ≠ q → s'.regs r = s.regs r := by
  induction L generalizing s with
  | nil => exact ⟨rfl, fun _ _ => rfl⟩
  | cons slot L ih =>
    have later : ∀ t ∈ L, t.1 ≠ .inl q := fun t inside => unused t (by simp [inside])
    have one : ∃ s', exec (FrameLayout.put (slot :: L) base q) s = exec (FrameLayout.put L base q) s' ∧
        s'.mem = s.mem.write (s.val base + BitVec.ofNat n slot.2) (s.item q slot.1) ∧
          ∀ r, r ≠ q → s'.regs r = s.regs r := by
      obtain ⟨r | v, o⟩ := slot
      · exact ⟨(Instr.store r base o).exec s, rfl, rfl, fun _ _ => rfl⟩
      · refine ⟨(Instr.store q base o).exec (s.setVal q v), rfl, ?_, fun r ne => Cpu.setVal_regs_of_ne _ ne⟩
        change (s.setVal q v).mem.write ((s.setVal q v).val base + _) ((s.setVal q v).regs q) = _
        rw [Cpu.setVal_val_of_ne _ own, Cpu.setVal, Cpu.setReg_regs]
        rfl
    obtain ⟨s', run, mem, others⟩ := one
    obtain ⟨mem', others'⟩ := ih s' later
    have same : s'.val base = s.val base := congrArg _ (others _ own)
    have items : ∀ t ∈ L, s'.item q t.1 = s.item q t.1 := by
      rintro ⟨r | v, o⟩ inside
      · exact others r fun eq => later _ inside (congrArg _ eq)
      · rfl
    rw [run]
    refine ⟨?_, fun r ne => (others' r ne).trans (others r ne)⟩
    rw [mem', mem, same, Bytes.spill_congr items]
    rfl

theorem exec_link (s : Cpu n width) (link pc q : R) (wide : 8 * width link = n ∧ 8 * width pc = n)
    (own : q ≠ link) (apart : link ≠ pc) (v : BitVec n) :
    let s' := exec [.set link v, .move pc q] s
    s'.mem = s.mem ∧ s'.val pc = s.val q ∧ s'.val link = v ∧
      ∀ r, r ≠ pc → r ≠ link → s'.regs r = s.regs r := by
  simp only [exec_cons, exec_nil, Instr.exec]
  refine ⟨rfl, ?_, ?_, fun r ne other => ?_⟩
  · rw [Cpu.setVal_val wide.2, Cpu.setVal_val_of_ne _ own]
  · rw [Cpu.setVal_val_of_ne _ apart, Cpu.setVal_val wide.1]
  · rw [Cpu.setVal_regs_of_ne _ ne, Cpu.setVal_regs_of_ne _ other]

end Facts

end EventHub.Library
