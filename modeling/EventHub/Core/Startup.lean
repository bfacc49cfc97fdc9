import EventHub.Kernel.Codes
import Mathlib.Data.List.Basic

/-! `eh_global_init`: the section with the modules is set up, and then the modules are, in the
order of the array. What a module does to the rest of the program is any function of it. -/

namespace EventHub.Core
open Kernel

/-- A function pointer of a module may be `NULL`. -/
structure EhModule (W : Type) where
  init : Option (W → Int × W)
  exit : Option (W → W)

inductive Call where
  | init (i : Nat)
  | exit (i : Nat)
deriving DecidableEq

structure Boot (W : Type) where
  world : W
  calls : List Call
deriving DecidableEq

/-- What `eh_module_section_init` returns, and the modules that lie in the section then. -/
structure Section (W : Type) where
  ret : Int
  array : List (EhModule W)

variable {W : Type}

/-- The return value, and `eh_init_fini_array` up to its length, which `memset` clears. -/
def interiorInit (sect : Section W) : Int × List (EhModule W) :=
  if sect.ret < 0 then (sect.ret, []) else (0, sect.array)

/-- `i` and the modules before it, downwards. -/
def exitFrom (array : List (EhModule W)) : Nat → Boot W → Boot W
  | 0, b => b
  | i + 1, b =>
    match array[i]?.bind EhModule.exit with
    | none => exitFrom array i b
    | some exit => exitFrom array i ⟨exit b.world, b.calls ++ [.exit i]⟩

/-- The loop from `i` on, over the modules that are left. -/
def initFrom (array : List (EhModule W)) : Nat → Int → List (EhModule W) → Boot W → Int × Boot W
  | _, ret, [], b => (ret, b)
  | i, ret, m :: rest, b =>
    match m.init with
    | none => initFrom array (i + 1) ret rest b
    | some init =>
      let b' : Boot W := ⟨(init b.world).2, b.calls ++ [.init i]⟩
      if (init b.world).1 < 0 then ((init b.world).1, exitFrom array i b')
      else initFrom array (i + 1) (init b.world).1 rest b'

def moduleGroupInit (array : List (EhModule W)) (b : Boot W) : Int × Boot W :=
  initFrom array 0 0 array b

/-- The value of `interior_init` is not used. -/
def ehGlobalInit (sect : Section W) (world : W) : Int × Boot W :=
  moduleGroupInit (interiorInit sect).2 ⟨world, []⟩

/-! Two of the platforms read the section from the image of the program. -/

/-- A section of the image: its name, the whole modules in it and the bytes behind them. -/
structure ImageSection (W : Type) where
  sectname : List UInt8
  modules : List (EhModule W)
  excess : Nat

def bubblePass : Nat → List (ImageSection W) → List (ImageSection W)
  | j + 1, a :: b :: rest =>
    if b.sectname < a.sectname then b :: bubblePass j (a :: rest)
    else a :: bubblePass j (b :: rest)
  | _, l => l

def bubbleSort : Nat → List (ImageSection W) → List (ImageSection W)
  | 0, l => l
  | n + 1, l => bubbleSort n (bubblePass n l)

def copySections (sections : List (ImageSection W)) (malloc : Bool) : Section W :=
  if malloc then ⟨0, (bubbleSort sections.length sections).flatMap ImageSection.modules⟩
  else ⟨ehRetMallocError, []⟩

structure Segment (W : Type) where
  segname : List UInt8
  sections : List (ImageSection W)

/-- `_EH_SECTION_BASE_NAME` on macOS, "__EH_IFA_DATA". -/
def macosBaseName : List UInt8 := [95, 95, 69, 72, 95, 73, 70, 65, 95, 68, 65, 84, 65]

namespace Macos

/-- `image` has the `LC_SEGMENT_64` commands of the header, the last of the name counts. -/
def ehModuleSectionInit (image : Option (List (Segment W))) (malloc : Bool) : Section W :=
  match image with
  | none => ⟨ehRetInvalidState, []⟩
  | some segments =>
    match (segments.filter (·.segname = macosBaseName)).getLast? with
    | none => ⟨ehRetInvalidState, []⟩
    | some seg =>
      if seg.sections.any (·.excess ≠ 0) then ⟨ehRetInvalidState, []⟩
      else copySections seg.sections malloc

end Macos

/-- `_EH_SECTION_BASE_NAME` on Windows, ".ehm". -/
def windowsBaseName : List UInt8 := [46, 101, 104, 109]

namespace Windows

/-- `image` has the sections of a header with both signatures, with the names that
`get_section_name` finds; at most 64 of them are taken. -/
def ehModuleSectionInit (image : Option (List (ImageSection W))) (malloc : Bool) : Section W :=
  match image with
  | none => ⟨ehRetInvalidState, []⟩
  | some sections =>
    let matched := (sections.filter fun sect => windowsBaseName.isPrefixOf sect.sectname).take 64
    if matched.any (·.excess ≠ 0) then ⟨ehRetInvalidState, []⟩
    else if matched.length = 0 then ⟨ehRetInvalidState, []⟩
    else copySections matched malloc

end Windows

/-! What a start-up promises. -/

/-- The value of `init`, and what the module makes of the program. -/
def EhModule.run (m : EhModule W) (world : W) : Int × W :=
  match m.init with
  | none => (0, world)
  | some init => init world

/-- Of the inits, each after the ones before it, that of module `k` is the first to fail. -/
def FirstFailure : List (EhModule W) → W → Nat → Prop
  | [], _, _ => False
  | m :: _, world, 0 => (m.run world).1 < 0
  | m :: rest, world, k + 1 => 0 ≤ (m.run world).1 ∧ FirstFailure rest (m.run world).2 k

/-- The inits of modules that lie from place `i` on. -/
def initCalls (i : Nat) (array : List (EhModule W)) : List Call :=
  (array.zipIdx i).filterMap fun p => p.1.init.map fun _ => .init p.2

def exitCalls (i : Nat) (array : List (EhModule W)) : List Call :=
  (array.zipIdx i).filterMap fun p => p.1.exit.map fun _ => .exit p.2

/-- Failures are reported, no others are, and what was set up is taken down again. -/
structure StartsSafely (sect : Section W) (world : W) : Prop where
  reported : (ehGlobalInit sect world).1 < 0 ↔
    sect.ret < 0 ∨ ∃ k, FirstFailure sect.array world k
  rolledBack : ∀ k, FirstFailure sect.array world k →
    (ehGlobalInit sect world).2.calls =
      initCalls 0 (sect.array.take (k + 1)) ++ (exitCalls 0 (sect.array.take k)).reverse

section Modules
variable {array rest : List (EhModule W)} {i k : Nat} {ret : Int} {b : Boot W}

theorem initCalls_cons (m : EhModule W) :
    initCalls i (m :: rest) = (m.init.map fun _ => Call.init i).toList ++
      initCalls (i + 1) rest := by
  rw [initCalls, List.zipIdx_cons, List.filterMap_cons]
  cases m.init <;> rfl

theorem exitCalls_append_one (m : EhModule W) :
    exitCalls 0 (array ++ [m]) = exitCalls 0 array ++
      (m.exit.map fun _ => Call.exit array.length).toList := by
  rw [exitCalls, List.zipIdx_append, List.filterMap_append]
  cases exit : m.exit <;> simp [exitCalls, exit]

theorem exitFrom_calls (le : i ≤ array.length) :
    (exitFrom array i b).calls = b.calls ++ (exitCalls 0 (array.take i)).reverse := by
  induction i generalizing b with
  | zero => simp [exitFrom, exitCalls]
  | succ i ih =>
    have lt : i < array.length := le
    have before : i ≤ array.length := Nat.le_of_lt lt
    rw [exitFrom, List.take_add_one, List.getElem?_eq_getElem lt, Option.toList_some,
      exitCalls_append_one, List.length_take_of_le before, Option.bind_some]
    cases exit : array[i].exit with
    | none =>
      rw [ih before]
      simp
    | some exit =>
      rw [ih before]
      simp

theorem initFrom_cons (array : List (EhModule W)) (i : Nat) (rest : List (EhModule W)) (b : Boot W)
    (m : EhModule W) (nonneg : 0 ≤ ret) :
    ∃ b' : Boot W, b'.world = (m.run b.world).2 ∧
      b'.calls = b.calls ++ (m.init.map fun _ => Call.init i).toList ∧
      ((m.run b.world).1 < 0 →
        initFrom array i ret (m :: rest) b = ((m.run b.world).1, exitFrom array i b')) ∧
      (0 ≤ (m.run b.world).1 → ∃ ret', 0 ≤ ret' ∧
        initFrom array i ret (m :: rest) b = initFrom array (i + 1) ret' rest b') := by
  rw [initFrom, EhModule.run]
  cases m.init with
  | none =>
    refine ⟨b, rfl, by simp, fun fails => absurd fails (Int.lt_irrefl 0), fun _ => ?_⟩
    exact ⟨ret, nonneg, rfl⟩
  | some init =>
    refine ⟨⟨(init b.world).2, b.calls ++ [.init i]⟩, rfl, rfl, fun fails => ?_, fun ok => ?_⟩
    · exact if_pos fails
    · exact ⟨_, ok, if_neg (Int.not_lt.mpr ok)⟩

theorem initFrom_ok (nonneg : 0 ≤ ret) (ok : ∀ k, ¬ FirstFailure rest b.world k) :
    0 ≤ (initFrom array i ret rest b).1 := by
  induction rest generalizing i ret b with
  | nil => exact nonneg
  | cons m rest ih =>
    obtain ⟨b', world, -, -, next⟩ := initFrom_cons array i rest b m nonneg
    have first : 0 ≤ (m.run b.world).1 := Int.not_lt.mp (ok 0)
    obtain ⟨ret', nonneg', eq⟩ := next first
    rw [eq]
    refine ih nonneg' fun k fails => ok (k + 1) ⟨first, ?_⟩
    rw [← world]
    exact fails

theorem initFrom_fails (nonneg : 0 ≤ ret) (fails : FirstFailure rest b.world k) :
    (initFrom array i ret rest b).1 < 0 ∧
      ∃ b' : Boot W, (initFrom array i ret rest b).2 = exitFrom array (i + k) b' ∧
        b'.calls = b.calls ++ initCalls i (rest.take (k + 1)) := by
  induction rest generalizing i ret b k with
  | nil => cases fails
  | cons m rest ih =>
    obtain ⟨b', world, calls, stop, next⟩ := initFrom_cons array i rest b m nonneg
    rw [List.take_succ_cons, initCalls_cons]
    cases k with
    | zero =>
      rw [stop fails]
      refine ⟨fails, b', rfl, ?_⟩
      rw [calls]
      simp [initCalls]
    | succ k =>
      obtain ⟨ok, later⟩ := fails
      obtain ⟨ret', nonneg', eq⟩ := next ok
      rw [← world] at later
      obtain ⟨negative, b'', run, calls'⟩ := ih (i := i + 1) nonneg' later
      rw [eq]
      refine ⟨negative, b'', ?_, ?_⟩
      · rw [run, Nat.add_right_comm, Nat.add_assoc]
      · rw [calls', calls, List.append_assoc]

theorem FirstFailure.lt {world : W} (h : FirstFailure rest world k) : k < rest.length := by
  induction rest generalizing world k with
  | nil => cases h
  | cons m rest ih =>
    cases k with
    | zero => exact Nat.zero_lt_succ _
    | succ k => exact Nat.succ_lt_succ (ih h.2)

theorem moduleGroupInit_negative_iff (world : W) :
    (moduleGroupInit array ⟨world, []⟩).1 < 0 ↔ ∃ k, FirstFailure array world k := by
  refine ⟨fun negative => ?_, fun ⟨k, fails⟩ => (initFrom_fails (Int.le_refl 0) fails).1⟩
  by_contra ok
  have nonneg : 0 ≤ (initFrom array 0 0 array ⟨world, []⟩).1 :=
    initFrom_ok (Int.le_refl 0) (not_exists.mp ok)
  exact absurd negative (Int.not_lt.mpr nonneg)

theorem moduleGroupInit_calls {world : W} (fails : FirstFailure array world k) :
    (moduleGroupInit array ⟨world, []⟩).2.calls =
      initCalls 0 (array.take (k + 1)) ++ (exitCalls 0 (array.take k)).reverse := by
  obtain ⟨-, b', run, calls⟩ : (initFrom array 0 0 array ⟨world, []⟩).1 < 0 ∧ _ :=
    initFrom_fails (Int.le_refl 0) fails
  rw [moduleGroupInit, run, Nat.zero_add, exitFrom_calls (Nat.le_of_lt fails.lt), calls,
    List.nil_append]

end Modules

/-! The platforms that copy the sections. -/

section Names
variable {l : List (ImageSection W)} {a b c : ImageSection W}

/-- In the order of `strcmp`. -/
def NameOrder (l : List (ImageSection W)) : Prop := l.Pairwise fun a b => a.sectname ≤ b.sectname

theorem name_le_trans (first : a.sectname ≤ b.sectname) (second : b.sectname ≤ c.sectname) :
    a.sectname ≤ c.sectname := List.le_trans first second

theorem le_last {front rest : List (ImageSection W)} (perm : (b :: front).Perm (a :: rest))
    (most : ∀ c ∈ front, c.sectname ≤ b.sectname) : a.sectname ≤ b.sectname := by
  rcases List.mem_cons.mp (perm.mem_iff.mpr (List.mem_cons_self ..)) with rfl | mem
  · exact List.le_refl _
  · exact most a mem

/-- Behind a pass, the last of the names that it has compared stands behind the others. -/
theorem bubblePass_spec (j : Nat) (l : List (ImageSection W)) (h : j < l.length) :
    ∃ front last, bubblePass j l = front ++ last :: l.drop (j + 1) ∧
      (last :: front).Perm (l.take (j + 1)) ∧ ∀ a ∈ front, a.sectname ≤ last.sectname := by
  induction j generalizing l with
  | zero =>
    match l with
    | a :: rest => exact ⟨[], a, rfl, .refl _, by simp⟩
  | succ j ih =>
    match l with
    | [_] => simp at h
    | a :: b :: rest =>
      have short : j < rest.length + 1 := by simpa using h
      by_cases swap : b.sectname < a.sectname
      · obtain ⟨front, last, pass, perm, most⟩ := ih (a :: rest) short
        refine ⟨b :: front, last, by rw [bubblePass, if_pos swap, pass]; rfl, ?_, ?_⟩
        · refine (List.Perm.swap b last front).trans ?_
          exact (perm.cons b).trans (List.Perm.swap a b _)
        · have above : a.sectname ≤ last.sectname := le_last perm most
          exact List.forall_mem_cons.mpr ⟨name_le_trans (List.le_of_lt swap) above, most⟩
      · obtain ⟨front, last, pass, perm, most⟩ := ih (b :: rest) short
        refine ⟨a :: front, last, by rw [bubblePass, if_neg swap, pass]; rfl, ?_, ?_⟩
        · exact (List.Perm.swap a last front).trans (perm.cons a)
        · have above : b.sectname ≤ last.sectname := le_last perm most
          exact List.forall_mem_cons.mpr ⟨name_le_trans (List.not_lt.mp swap) above, most⟩

theorem bubbleSort_spec {n : Nat} (le : n ≤ l.length) (settled : NameOrder (l.drop n))
    (below : ∀ a ∈ l.take n, ∀ b ∈ l.drop n, a.sectname ≤ b.sectname) :
    NameOrder (bubbleSort n l) ∧ (bubbleSort n l).Perm l := by
  induction n generalizing l with
  | zero => exact ⟨settled, .refl _⟩
  | succ n ih =>
    obtain ⟨front, last, pass, perm, most⟩ := bubblePass_spec n l le
    have size : front.length = n := by
      have := perm.length_eq
      rw [List.length_cons, List.length_take_of_le le] at this
      omega
    have inside : ∀ a, a = last ∨ a ∈ front → a ∈ l.take (n + 1) := fun a mem =>
      perm.mem_iff.mp (List.mem_cons.mpr mem)
    rw [bubbleSort, pass]
    have done := ih (l := front ++ last :: l.drop (n + 1)) (by simp [size]) ?_ ?_
    · refine ⟨done.1, done.2.trans ?_⟩
      refine List.perm_middle.trans ((perm.append_right _).trans ?_)
      rw [List.take_append_drop]
    · rw [List.drop_left' size]
      exact List.pairwise_cons.mpr ⟨below last (inside last (.inl rfl)), settled⟩
    · rw [List.drop_left' size, List.take_left' size]
      intro a mem b mem'
      rcases List.mem_cons.mp mem' with rfl | mem'
      · exact most a mem
      · exact below a (inside a (.inr mem)) b mem'

end Names

/-- The modules are those of the sections found, in the order of the names of these. -/
def SetUp (sect : Section W) (found : List (ImageSection W)) : Prop :=
  sect.ret = 0 ∧ ∃ l, NameOrder l ∧ l.Perm found ∧ sect.array = l.flatMap ImageSection.modules

theorem copySections_setUp (found : List (ImageSection W)) :
    SetUp (copySections found true) found := by
  have sorted : NameOrder (bubbleSort found.length found) ∧
      (bubbleSort found.length found).Perm found :=
    bubbleSort_spec (Nat.le_refl _) (by simp [NameOrder]) (by simp)
  exact ⟨rfl, _, sorted.1, sorted.2, rfl⟩

theorem copySections_ret {found : List (ImageSection W)} {malloc : Bool}
    (ok : 0 ≤ (copySections found malloc).ret) : malloc = true := by
  cases malloc with
  | true => rfl
  | false => exact absurd ok (by decide : ¬0 ≤ ehRetMallocError)

/-- The error of `eh_module_section_init` is lost. -/
theorem not_startsSafely {sect : Section W} {world : W} (failed : sect.ret < 0) :
    ¬ StartsSafely sect world := by
  intro safe
  have lost : (ehGlobalInit sect world).1 = 0 := by
    rw [ehGlobalInit, interiorInit, if_pos failed]
    rfl
  have reported := safe.reported.mpr (.inl failed)
  rw [lost] at reported
  exact Int.lt_irrefl 0 reported

theorem startsSafely {sect : Section W} (ok : 0 ≤ sect.ret) (world : W) :
    StartsSafely sect world := by
  have started : ehGlobalInit sect world = moduleGroupInit sect.array ⟨world, []⟩ := by
    rw [ehGlobalInit, interiorInit, if_neg (Int.not_lt.mpr ok)]
  refine ⟨?_, fun k fails => ?_⟩
  · rw [started, moduleGroupInit_negative_iff, or_iff_right (Int.not_lt.mpr ok)]
  · rw [started]
    exact moduleGroupInit_calls fails

/-- A start-up keeps its promises exactly where the section is set up. -/
theorem ehGlobalInit_safe_iff (sect : Section W) (world : W) :
    StartsSafely sect world ↔ 0 ≤ sect.ret :=
  ⟨fun safe => Int.not_lt.mp fun failed => not_startsSafely failed safe,
    fun ok => startsSafely ok world⟩

/-- On macOS with no memory left `eh_global_init` returns 0, and no module is set up. -/
theorem ehGlobalInit_section_lost :
    ¬ StartsSafely (Macos.ehModuleSectionInit
      (some [⟨macosBaseName, [⟨[49], [⟨some fun w : Nat => (0, w + 1), none⟩], 0⟩]⟩]) false) 0 :=
  not_startsSafely (by decide)

/-- On macOS a start-up is safe exactly where the segment is there, its sections hold whole modules,
and there is memory for a copy. -/
theorem Macos.startsSafely_iff (image : Option (List (Segment W))) (malloc : Bool) (world : W) :
    StartsSafely (ehModuleSectionInit image malloc) world ↔
      ∃ segments seg, image = some segments ∧
        (segments.filter (·.segname = macosBaseName)).getLast? = some seg ∧
        (∀ sect ∈ seg.sections, sect.excess = 0) ∧ malloc = true ∧
        SetUp (ehModuleSectionInit image malloc) seg.sections := by
  constructor
  · intro safe
    have ok := Int.not_lt.mp fun failed => not_startsSafely failed safe
    unfold ehModuleSectionInit at ok ⊢
    split at ok
    · exact absurd ok (by decide : ¬0 ≤ ehRetInvalidState)
    next segments =>
    split at ok
    · exact absurd ok (by decide : ¬0 ≤ ehRetInvalidState)
    next seg last =>
    split at ok
    · exact absurd ok (by decide : ¬0 ≤ ehRetInvalidState)
    · next whole =>
      obtain rfl := copySections_ret ok
      refine ⟨segments, seg, rfl, last, by simpa using whole, rfl, ?_⟩
      rw [if_neg whole]
      exact copySections_setUp seg.sections
  · rintro ⟨segments, seg, -, -, -, -, ok, -⟩
    exact startsSafely (Int.le_of_eq ok.symm) world

theorem Windows.startsSafely_iff (image : Option (List (ImageSection W))) (malloc : Bool)
    (world : W) :
    StartsSafely (ehModuleSectionInit image malloc) world ↔
      ∃ sections found, image = some sections ∧
        (sections.filter fun sect => windowsBaseName.isPrefixOf sect.sectname).take 64 = found ∧
        found ≠ [] ∧ (∀ sect ∈ found, sect.excess = 0) ∧ malloc = true ∧
        SetUp (ehModuleSectionInit image malloc) found := by
  constructor
  · intro safe
    have ok := Int.not_lt.mp fun failed => not_startsSafely failed safe
    unfold ehModuleSectionInit at ok ⊢
    split at ok
    · exact absurd ok (by decide : ¬0 ≤ ehRetInvalidState)
    next sections =>
    dsimp only at ok ⊢
    generalize same : (sections.filter fun sect =>
      windowsBaseName.isPrefixOf sect.sectname).take 64 = found at ok ⊢
    split at ok
    · exact absurd ok (by decide : ¬0 ≤ ehRetInvalidState)
    next whole =>
    split at ok
    · exact absurd ok (by decide : ¬0 ≤ ehRetInvalidState)
    · next some =>
      obtain rfl := copySections_ret ok
      refine ⟨sections, found, rfl, same, by simpa using some, by simpa using whole, rfl, ?_⟩
      rw [if_neg whole, if_neg some]
      exact copySections_setUp found
  · rintro ⟨sections, found, -, -, -, -, -, ok, -⟩
    exact startsSafely (Int.le_of_eq ok.symm) world

end EventHub.Core
