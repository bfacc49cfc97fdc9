import EventHub.Kernel.Simulation
import EventHub.Library.Suffix

/-! Waking one waiter for each token. The waiters that were woken stand at the end of the queue
until they look. -/

namespace EventHub.Sync
open Library Event Kernel

variable {T O P W C A : Type} {sys : System T O W C A} {v v' : View T O P W C A} {i : Option C}

def Awake (sleeping : T → Option C) (r : Receptor (EhEvent T O) T P) : Prop :=
  ∀ t, r = .wait t → sleeping t = none

theorem Awake.woken {sleeping sleeping' : T → Option C} {r : Receptor (EhEvent T O) T P}
    (h : Awake sleeping r) (kept : ∀ t, sleeping' t = sleeping t ∨ sleeping' t = none) :
    Awake sleeping' r := by
  intro t eq
  rcases kept t with same | none
  · rw [same]
    exact h t eq
  · exact none

structure OnlyWaits (o : O) (v : View T O P W C A) : Prop where
  waits : ∀ r ∈ v.queue o, ∃ t, r = .wait t
  single : ∀ {t x y}, .wait t ∈ v.queue x → .wait t ∈ v.queue y → x = y

theorem OnlyWaits.subset {o : O} (h : OnlyWaits o v) (sub : ∀ x, v'.queue x ⊆ v.queue x) :
    OnlyWaits o v' where
  waits r mem := h.waits r (sub o mem)
  single memX memY := h.single (sub _ memX) (sub _ memY)

variable [DecidableEq O]

theorem after_subset (g : Option (Signal O)) (queue : O → List (Receptor (EhEvent T O) T P))
    (x : O) : Signal.after g queue x ⊆ queue x := by
  cases g with
  | none => exact fun r mem => mem
  | some g =>
    cases g with
    | notify o => exact fun r mem => mem
    | clean o =>
      simp only [Signal.after]
      by_cases eq : x = o
      · simp [eq]
      · simp [eq]
    | notifyAndReorder o num =>
      simp only [Signal.after]
      by_cases eq : x = o
      · subst eq
        rw [Function.update_self]
        intro r mem
        rw [List.mem_append] at mem
        rcases mem with rest | first
        · exact List.mem_of_mem_drop rest
        · exact List.mem_of_mem_take first
      · rw [Function.update_of_ne eq]
        exact fun r mem => mem

variable [DecidableEq T] [DecidableEq P]

theorem erase_subset (queue : O → List (Receptor (EhEvent T O) T P)) (o x : O)
    (r : Receptor (EhEvent T O) T P) :
    Function.update queue o ((queue o).erase r) x ⊆ queue x := by
  by_cases eq : x = o
  · subst eq
    rw [Function.update_self]
    exact List.erase_subset
  · rw [Function.update_of_ne eq]
    exact fun y mem => mem

theorem queue_step (step : View.Step sys v i v') :
    (∀ x, v'.queue x ⊆ v.queue x) ∨
      ∃ c, (∀ x, .wait v.self ∉ v.queue x) ∧
        v'.queue = Function.update v.queue (sys.event c)
          (v.queue (sys.event c) ++ [.wait v.self]) := by
  cases step with
  | join _ out => exact .inr ⟨_, out, rfl⟩
  | met | triggered | refused => exact .inl fun x => erase_subset _ _ x _
  | act | interrupt | signal => exact .inl fun x => after_subset _ _ x
  | unwatch => exact .inl fun x => erase_subset _ _ x _
  | _ => exact .inl fun x r mem => mem

theorem OnlyWaits.step {o : O} (h : OnlyWaits o v) (step : View.Step sys v i v') :
    OnlyWaits o v' := by
  rcases queue_step step with sub | ⟨c, out, eq⟩
  · exact h.subset sub
  · have joined : ∀ {x r}, r ∈ v'.queue x →
        r ∈ v.queue x ∨ r = .wait v.self ∧ x = sys.event c := by
      intro x r mem
      rw [eq] at mem
      by_cases here : x = sys.event c
      · rw [here, Function.update_self, List.mem_append, List.mem_singleton] at mem
        rw [here]
        exact mem.imp_right fun last => ⟨last, rfl⟩
      · rw [Function.update_of_ne here] at mem
        exact .inl mem
    constructor
    · intro r mem
      rcases joined mem with old | ⟨new, -⟩
      · exact h.waits r old
      · exact ⟨_, new⟩
    · intro t x y memX memY
      rcases joined memX with oldX | ⟨newX, atX⟩ <;> rcases joined memY with oldY | ⟨newY, atY⟩
      · exact h.single oldX oldY
      · cases newY
        exact absurd oldX (out _)
      · cases newX
        exact absurd oldY (out _)
      · rw [atX, atY]

omit [DecidableEq T] [DecidableEq P] in
theorem OnlyWaits.watch {o x : O} {p : P} (h : OnlyWaits o v) (ne : o ≠ x) :
    OnlyWaits o (v.watch p x) := by
  have old : ∀ {y t}, .wait t ∈ (v.watch p x).queue y → .wait t ∈ v.queue y := by
    intro y t mem
    by_cases eq : y = x
    · subst eq
      simpa [View.watch] using mem
    · simpa [View.watch, eq] using mem
  refine ⟨fun r mem => h.waits r ?_, fun memX memY => h.single (old memX) (old memY)⟩
  simpa [View.watch, ne] using mem

theorem OnlyWaits.unwatch {o : O} (h : OnlyWaits o v) (p : P) (x : O) :
    Function.update v.queue x ((v.queue x).erase (.epoll p (.object x))) o = v.queue o := by
  by_cases eq : o = x
  · subst eq
    rw [Function.update_self]
    apply List.erase_of_not_mem
    intro mem
    obtain ⟨t, eq⟩ := h.waits _ mem
    cases eq
  · exact Function.update_of_ne eq _ _

/-- The number of waiters of the object that the signal wakes and moves to the end. -/
def handed : Option (Signal O) → O → Nat
  | some (.notifyAndReorder x num), o => if x = o then num.toNat else 0
  | _, _ => 0

/-- The last `n` receptors of the object are those of tasks that are awake. -/
def LastAwake (o : O) (n : Nat) (v : View T O P W C A) : Prop :=
  LastAll (Awake v.sleeping) n (v.queue o)

namespace LastAwake
variable {o : O} {n m : Nat}

omit [DecidableEq O] [DecidableEq T] [DecidableEq P] in
theorem mono (h : LastAwake o n v) (queue : v'.queue o = v.queue o)
    (sleeping : v'.sleeping = v.sleeping) (le : m ≤ n) : LastAwake o m v' := by
  rw [LastAwake, queue, sleeping]
  exact LastAll.mono h le

omit [DecidableEq T] [DecidableEq P] in
theorem join (h : LastAwake o n v) (awake : v.sleeping v.self = none) (x : O) :
    LastAwake o n { v with
      queue := Function.update v.queue x (v.queue x ++ [.wait v.self]) } := by
  rw [LastAwake]
  dsimp only
  by_cases eq : o = x
  · subst eq
    rw [Function.update_self]
    apply LastAll.concat h
    intro t own
    cases own
    exact awake
  · rw [Function.update_of_ne eq]
    exact h

theorem leave (h : LastAwake o n v) {c : C} (queue : v'.queue = v.leave sys c)
    (sleeping : v'.sleeping = v.sleeping) (taken : sys.event c = o → m ≤ n - 1) (le : m ≤ n) :
    LastAwake o m v' := by
  rw [LastAwake, queue, sleeping, View.leave]
  by_cases eq : o = sys.event c
  · rw [← eq, Function.update_self]
    cases n with
    | zero =>
      obtain rfl : m = 0 := Nat.le_zero.mp le
      exact LastAll.zero _ _
    | succ n => exact (LastAll.erase h _).mono (taken eq.symm)
  · rw [Function.update_of_ne eq]
    exact LastAll.mono h le

omit [DecidableEq P] in
theorem park (h : LastAwake o n v) (only : OnlyWaits o v) {c : C}
    (linked : .wait v.self ∈ v.queue (sys.event c)) (queue : v'.queue = v.queue)
    (sleeping : v'.sleeping = Function.update v.sleeping v.self (some c))
    (none : sys.event c = o → m = 0) (le : m ≤ n) : LastAwake o m v' := by
  by_cases eq : sys.event c = o
  · rw [none eq]
    exact LastAll.zero _ _
  · rw [LastAwake, queue, sleeping]
    refine (LastAll.mono h le).imp fun r mem awake t own => ?_
    have ne : t ≠ v.self := by
      rintro rfl
      subst own
      exact eq (only.single linked mem)
    rw [Function.update_of_ne ne]
    exact awake t own

omit [DecidableEq T] [DecidableEq P] in
theorem signal (h : LastAwake o n v) {g : Option (Signal O)} {sleeping : T → Option C}
    (woken : v.Woken g sleeping) (queue : v'.queue = Signal.after g v.queue)
    (asleep : v'.sleeping = sleeping) (le : m ≤ n + handed g o) : LastAwake o m v' := by
  have kept : LastAll (Awake sleeping) n (v.queue o) :=
    LastAll.imp h fun r _ awake => awake.woken woken.kept
  rw [LastAwake, queue, asleep]
  refine LastAll.mono ?_ le
  cases g with
  | none => exact kept
  | some g =>
    cases g with
    | notify x => exact kept
    | clean x =>
      simp only [Signal.after, handed]
      by_cases eq : o = x
      · rw [eq, Function.update_self]
        exact LastAll.nil _ _
      · rw [Function.update_of_ne eq]
        exact kept
    | notifyAndReorder x num =>
      simp only [Signal.after, handed]
      by_cases eq : o = x
      · subst eq
        rw [Function.update_self, if_pos rfl]
        apply kept.rotate
        intro r mem t own
        subst own
        exact woken.reached t mem
      · rw [Function.update_of_ne eq, if_neg (Ne.symm eq)]
        exact kept

end LastAwake

end EventHub.Sync
