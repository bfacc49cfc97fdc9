import EventHub.Timer.Service
import EventHub.Library.Transition
import Mathlib.Data.List.Nodup

/-! One lemma for each operation of the timers, and the loop of `eh_timer_check` at one
reading of the clock: when it ends, and with what. -/

namespace EventHub.Timer
open RbTree Library

theorem ehDiffTime_range (a b : Nat) :
    -9223372036854775808 ≤ ehDiffTime a b ∧ ehDiffTime a b < 9223372036854775808 := by
  have lower := Int.le_bmod (x := (a : Int) - b) (m := clockSpan) (by decide)
  have upper := Int.bmod_lt (x := (a : Int) - b) (m := clockSpan) (by decide)
  unfold ehDiffTime
  unfold clockSpan at lower upper ⊢
  omega

theorem bmod_exact {x : Int} (lower : -9223372036854775808 ≤ x)
    (upper : x < 9223372036854775808) : Int.bmod x clockSpan = x := by
  refine (Int.bmod_eq_iff (by decide)).mpr ⟨?_, ?_, by simp⟩
  · unfold clockSpan
    omega
  · unfold clockSpan
    omega

theorem toClock_cast (x : Int) : (toClock x : Int) = x % clockSpan :=
  Int.toNat_of_nonneg (Int.emod_nonneg _ (by decide))

theorem ehDiffTime_add (a b : Nat) (i : Int) :
    ehDiffTime ((a + toClock i) % clockSpan) b = Int.bmod (ehDiffTime a b + i) clockSpan := by
  have split : (a : Int) + i % clockSpan - b = (a - b) + i % clockSpan := by omega
  simp only [ehDiffTime, Int.natCast_emod, Int.natCast_add, toClock_cast, Int.emod_sub_bmod,
    split, Int.add_emod_bmod, Int.bmod_add_bmod]

theorem ehDiffTime_self (a : Nat) : ehDiffTime a a = 0 := by
  simp [ehDiffTime]

namespace Timers
variable {s s' : Timers} {x y base now : Nat}

def nodes (s : Timers) : List Nat := s.timerTreeRoot.nodes

structure Wf (s : Timers) : Prop where
  tree : s.timerTreeRoot.Wf
  nodup : s.nodes.Nodup
  running : ∀ x, (s.timer x).running = true ↔ x ∈ s.nodes

theorem remaining_congr (expire : (s'.timer x).expire = (s.timer x).expire)
    (same : s'.timerNow = s.timerNow) : s'.remaining x = s.remaining x := by
  rw [remaining, remaining, expire, same]

theorem ehTimerRbtreeCmp_neg (s : Timers) (a b : Nat) :
    s.ehTimerRbtreeCmp a b < 0 ↔ s.remaining a < s.remaining b := by
  unfold ehTimerRbtreeCmp
  split
  · simp [*]
  · split <;> simp [*]

/-- The timer `x` armed for `expire`. -/
def armed (s : Timers) (x expire : Nat) : Nat → EhEventTimer :=
  Function.update s.timer x { s.timer x with expire, running := true }

theorem startNoLock_spec (wf : s.Wf) (idle : (s.timer x).running = false) (base : Nat) :
    ∃ s' before after, s.startNoLock base x =
        some (s', if before.isEmpty then firstTimerUpdate else retOk) ∧ s'.Wf ∧
      s'.timerNow = s.timerNow ∧
      s'.timer = s.armed x ((base + toClock (s.timer x).interval) % clockSpan) ∧
      s.nodes = before ++ after ∧ s'.nodes = before ++ x :: after ∧
      (∀ y ∈ before.getLast?, s'.remaining y ≤ s'.remaining x) ∧
      ∀ y ∈ after.head?, s'.remaining x < s'.remaining y := by
  let expire := (base + toClock (s.timer x).interval) % clockSpan
  let s₁ := s.setTimer x { s.timer x with expire }
  obtain ⟨root, before, after, run, tree, nodes, nodes', left, right⟩ :=
    s₁.timerTreeRoot.ehRbAdd_spec wf.tree (fun y => s₁.ehTimerRbtreeCmp x y < 0) x
  let s' := { s₁ with timerTreeRoot := root }.setTimer x { s₁.timer x with running := true }
  have timer : s'.timer = s.armed x expire := by
    simp [s', s₁, setTimer, armed]
  have same : ∀ y, s'.remaining y = s₁.remaining y := fun y => by
    refine remaining_congr ?_ rfl
    simp only [s', setTimer, Function.update_apply]
    split
    · rename_i eq
      rw [eq]
    · rfl
  have absent : x ∉ before ++ after := by
    rw [← nodes]
    intro mem
    have := (wf.running x).mpr mem
    rw [idle] at this
    cases this
  refine ⟨s', before, after, ?_, ⟨tree, ?_, fun y => ?_⟩, rfl, timer, nodes, nodes',
    fun y mem => ?_, fun y mem => ?_⟩
  · rw [startNoLock, if_neg (by simp [idle])]
    exact congrArg (Option.map _) run
  · have distinct : (before ++ after).Nodup := nodes ▸ wf.nodup
    rw [show s'.nodes = root.nodes from rfl, nodes']
    exact List.nodup_middle.mpr (List.nodup_cons.mpr ⟨absent, distinct⟩)
  · rw [timer, armed, show s'.nodes = root.nodes from rfl, nodes', Function.update_apply]
    by_cases eq : y = x
    · simp [eq]
    · rw [if_neg eq, wf.running y, show s.nodes = before ++ after from nodes]
      simp [eq]
  · have := left y mem
    rw [decide_eq_false_iff_not, ehTimerRbtreeCmp_neg] at this
    rw [same, same]
    omega
  · have := right y mem
    rw [decide_eq_true_eq, ehTimerRbtreeCmp_neg] at this
    rwa [same, same]

theorem delNode_spec (wf : s.Wf) (mem : x ∈ s.nodes) :
    ∃ s' before after, s.delNode x = some s' ∧ s'.Wf ∧ s'.timerNow = s.timerNow ∧
      s'.timer = Function.update s.timer x { s.timer x with running := false } ∧
      s.nodes = before ++ x :: after ∧ s'.nodes = before ++ after := by
  obtain ⟨root, before, after, run, tree, nodes, nodes'⟩ :=
    Root.ehRbDel_spec wf.tree wf.nodup mem
  let s' := { s with timerTreeRoot := root }.setTimer x { s.timer x with running := false }
  have distinct : (before ++ x :: after).Nodup := nodes ▸ wf.nodup
  obtain ⟨absent, distinct⟩ := List.nodup_cons.mp (List.nodup_middle.mp distinct)
  refine ⟨s', before, after, by simp [delNode, run, s'], ⟨tree, ?_, fun y => ?_⟩, rfl, rfl,
    nodes, nodes'⟩
  · rw [show s'.nodes = before ++ after from nodes']
    exact distinct
  · rw [show s'.nodes = before ++ after from nodes', show s'.timer y =
      Function.update s.timer x { s.timer x with running := false } y from rfl,
      Function.update_apply]
    by_cases eq : y = x
    · simpa [eq] using absent
    · rw [if_neg eq, wf.running y, show s.nodes = before ++ x :: after from nodes]
      simp [eq]

theorem leftmost_eq (wf : s.Wf) : s.timerTreeRoot.leftmost = s.nodes.head? :=
  wf.tree.leftmost

theorem dueFirst_eq_some (wf : s.Wf) :
    s.dueFirst = some x ↔ s.nodes.head? = some x ∧ s.remaining x ≤ 0 := by
  simp [dueFirst, leftmost_eq wf, Option.filter_eq_some_iff]

theorem dueFirst_eq_none (wf : s.Wf) :
    s.dueFirst = none ↔ ∀ x ∈ s.nodes.head?, 0 < s.remaining x := by
  simp [dueFirst, leftmost_eq wf, Option.filter_eq_none_iff]

theorem delNode_front {rest : List Nat} (wf : s.Wf) (front : s.nodes = x :: rest) :
    ∃ s', s.delNode x = some s' ∧ s'.Wf ∧ s'.timerNow = s.timerNow ∧
      s'.timer = Function.update s.timer x { s.timer x with running := false } ∧
      s'.nodes = rest := by
  obtain ⟨s', before, after, del, wf', now, timer, nodes, nodes'⟩ :=
    delNode_spec wf (x := x) (by simp [front])
  refine ⟨s', del, wf', now, timer, ?_⟩
  rw [front] at nodes
  cases before with
  | nil => exact nodes'.trans (List.cons.inj nodes).2.symm
  | cons a before =>
    -- the timer would still be in the tree
    obtain ⟨rfl, -⟩ := List.cons.inj nodes
    have left := (wf'.running x).mpr (by simp [nodes'])
    simp [timer] at left

/-- A periodic timer at the front that is due: it is put back into the rest of the tree,
behind those that expire no later than it does now. -/
theorem checkBody_periodic {rest : List Nat} (wf : s.Wf) (front : s.nodes = x :: rest)
    (periodic : (s.timer x).autoCirculation = true) :
    ∃ s' before after, s.checkBody x = some s' ∧ s'.Wf ∧ s'.timerNow = s.timerNow ∧
      s'.timer = s.armed x ((s.base x + toClock (s.timer x).interval) % clockSpan) ∧
      rest = before ++ after ∧ s'.nodes = before ++ x :: after ∧
      (∀ y ∈ before.getLast?, s'.remaining y ≤ s'.remaining x) ∧
      ∀ y ∈ after.head?, s'.remaining x < s'.remaining y := by
  obtain ⟨s₁, del, wf₁, now₁, timer₁, nodes₁⟩ := delNode_front wf front
  have idle : s₁.timer x = { s.timer x with running := false } := by simp [timer₁]
  have base : s₁.base x = s.base x := by
    simp [Timers.base, idle, now₁, EhEventTimer.nowTimeBase]
  obtain ⟨s', before, after, start, wf', now', timer', split, nodes', left, right⟩ :=
    startNoLock_spec wf₁ (x := x) (by rw [idle]) (s.base x)
  refine ⟨s', before, after, ?_, wf', now'.trans now₁, ?_, nodes₁ ▸ split, nodes', left, right⟩
  · have again : (s₁.timer x).autoCirculation = true := by
      rw [idle]
      exact periodic
    simp [checkBody, del, again, base, start]
  · rw [timer', armed, armed, idle, timer₁, Function.update_idem]

theorem checkBody_once {rest : List Nat} (wf : s.Wf) (front : s.nodes = x :: rest)
    (once : (s.timer x).autoCirculation = false) :
    ∃ s', s.checkBody x = some s' ∧ s'.Wf ∧ s'.timerNow = s.timerNow ∧
      s'.timer = Function.update s.timer x { s.timer x with running := false } ∧
      s'.nodes = rest := by
  obtain ⟨s', del, wf', now, timer, nodes⟩ := delNode_front wf front
  refine ⟨s', ?_, wf', now, timer, nodes⟩
  have same : (s'.timer x).autoCirculation = false := by
    rw [timer, Function.update_self]
    exact once
  simp [checkBody, del, same]

/-- What a due timer that is armed again has left: its phase is kept where that lies ahead. -/
theorem remaining_armed (due : s.remaining x ≤ 0) (nonneg : 0 ≤ (s.timer x).interval)
    (word : (s.timer x).interval < 9223372036854775808)
    (expire : (s'.timer x).expire =
      (s.base x + toClock (s.timer x).interval) % clockSpan)
    (same : s'.timerNow = s.timerNow) :
    s'.remaining x =
      if (s.timer x).nowTimeBase = false ∧ 0 < s.remaining x + (s.timer x).interval
      then s.remaining x + (s.timer x).interval else (s.timer x).interval := by
  have range := ehDiffTime_range (s.timer x).expire s.timerNow
  have ahead : ehDiffTime (((s.timer x).expire + toClock (s.timer x).interval) % clockSpan)
      s.timerNow = s.remaining x + (s.timer x).interval := by
    rw [ehDiffTime_add]
    refine bmod_exact ?_ ?_
    · change _ ≤ s.remaining x + _
      unfold remaining
      omega
    · change s.remaining x + _ < _
      omega
  have fromNow : ehDiffTime ((s.timerNow + toClock (s.timer x).interval) % clockSpan)
      s.timerNow = (s.timer x).interval := by
    rw [ehDiffTime_add, ehDiffTime_self, Int.zero_add]
    exact bmod_exact (by omega) word
  rw [remaining, expire, same, Timers.base]
  by_cases now : (s.timer x).nowTimeBase = true
  · rw [if_pos now, fromNow, if_neg (by simp [now])]
  · rw [if_neg now, ahead]
    by_cases keep : 0 < s.remaining x + (s.timer x).interval
    · rw [if_pos keep, ahead, if_pos ⟨by simpa using now, keep⟩]
    · rw [if_neg keep, fromNow, if_neg (fun h => keep h.2)]

/-- One iteration of the loop: the tree keeps the other timers in their order, and only
the timer at the front changes. -/
structure Iteration (s : Timers) (x : Nat) (rest : List Nat) (s' : Timers) : Prop where
  wf : s'.Wf
  timerNow : s'.timerNow = s.timerNow
  other : ∀ y, y ≠ x → s'.timer y = s.timer y
  kept : rest.Sublist s'.nodes
  back : x ∈ s'.nodes ↔ (s.timer x).autoCirculation = true
  only : ∀ y ∈ s'.nodes, y = x ∨ y ∈ rest
  interval : ∀ y, (s'.timer y).interval = (s.timer y).interval
  autoCirculation : ∀ y, (s'.timer y).autoCirculation = (s.timer y).autoCirculation

theorem checkBody_ok {rest : List Nat} (wf : s.Wf) (front : s.nodes = x :: rest) :
    ∃ s', s.checkBody x = some s' ∧ Iteration s x rest s' := by
  have absent : x ∉ rest := (List.nodup_cons.mp (front ▸ wf.nodup)).1
  cases attr : (s.timer x).autoCirculation with
  | true =>
    obtain ⟨s', before, after, run, wf', now, timer, rfl, nodes, -, -⟩ :=
      checkBody_periodic wf front attr
    refine ⟨s', run, wf', now, fun y ne => ?_, ?_, ?_, fun y mem => ?_, fun y => ?_,
      fun y => ?_⟩
    · rw [timer, armed, Function.update_of_ne ne]
    · rw [nodes]
      exact (List.sublist_cons_self x after).append_left before
    · simp [nodes, attr]
    · simp only [nodes, List.mem_append, List.mem_cons] at mem ⊢
      tauto
    · rw [timer, armed, Function.apply_update (fun _ => EhEventTimer.interval)]
      exact congrFun (Function.update_eq_self ..) y
    · rw [timer, armed, Function.apply_update (fun _ => EhEventTimer.autoCirculation)]
      exact congrFun (Function.update_eq_self x fun y => (s.timer y).autoCirculation) y
  | false =>
    obtain ⟨s', run, wf', now, timer, rfl⟩ := checkBody_once wf front attr
    refine ⟨s', run, wf', now, fun y ne => by rw [timer, Function.update_of_ne ne],
      List.Sublist.refl _, by simp [absent, attr], fun y => .inr, fun y => ?_, fun y => ?_⟩
    · rw [timer, Function.apply_update (fun _ => EhEventTimer.interval)]
      exact congrFun (Function.update_eq_self ..) y
    · rw [timer, Function.apply_update (fun _ => EhEventTimer.autoCirculation)]
      exact congrFun (Function.update_eq_self x fun y => (s.timer y).autoCirculation) y

theorem Iteration.remaining {rest : List Nat} (it : Iteration s x rest s') (ne : y ≠ x) :
    s'.remaining y = s.remaining y :=
  remaining_congr (by rw [it.other y ne]) it.timerNow

theorem front_of_due (wf : s.Wf) (h : s.dueFirst = some x) :
    ∃ rest, s.nodes = x :: rest ∧ s.remaining x ≤ 0 := by
  obtain ⟨head, due⟩ := (dueFirst_eq_some wf).mp h
  obtain ⟨rest, front⟩ := List.head?_eq_some_iff.mp head
  exact ⟨rest, front, due⟩

/-- What every iteration keeps holds when the loop has ended; then the first timer, if
there is one, is not due. -/
theorem drain_kept {I : Timers → Prop}
    (kept : ∀ {s x rest s'}, s.Wf → I s → s.nodes = x :: rest → s.remaining x ≤ 0 →
      s.checkBody x = some s' → Iteration s x rest s' → I s')
    {fuel : Nat} {notified : List Nat} (wf : s.Wf) (start : I s)
    (run : drain fuel s = .ok (s', notified)) : I s' ∧ s'.Wf ∧ s'.dueFirst = none := by
  induction fuel generalizing s notified with
  | zero =>
    rw [drain] at run
    split at run
    · cases run
      exact ⟨start, wf, ‹_›⟩
    · cases run
  | succ fuel ih =>
    rw [drain] at run
    split at run
    · cases run
      exact ⟨start, wf, ‹_›⟩
    · rename_i x due
      obtain ⟨rest, front, due⟩ := front_of_due wf due
      obtain ⟨s₁, body, it⟩ := checkBody_ok wf front
      simp only [body] at run
      cases more : drain fuel s₁ with
      | error e =>
        rw [more] at run
        cases run
      | ok result =>
        rw [more] at run
        cases run
        exact ih it.wf (kept wf start front due body it) more

/-- More fuel changes no result. -/
theorem drain_mono {fuel more : Nat} {notified : List Nat}
    (run : drain fuel s = .ok (s', notified)) (le : fuel ≤ more) :
    drain more s = .ok (s', notified) := by
  induction fuel generalizing s s' more notified with
  | zero =>
    rw [drain] at run ⊢
    cases first : s.dueFirst with
    | none =>
      rw [first] at run
      exact run
    | some x =>
      rw [first] at run
      cases run
  | succ fuel ih =>
    obtain ⟨more, rfl⟩ := Nat.exists_eq_succ_of_ne_zero (Nat.ne_of_gt (Nat.zero_lt_of_lt le))
    rw [drain] at run ⊢
    cases first : s.dueFirst with
    | none =>
      rw [first] at run
      exact run
    | some x =>
      cases body : s.checkBody x with
      | none =>
        simp only [first, body] at run
        cases run
      | some s₁ =>
        simp only [first, body] at run ⊢
        cases result : drain fuel s₁ with
        | error e =>
          rw [result] at run
          cases run
        | ok pair =>
          obtain ⟨s₂, rest⟩ := pair
          rw [ih result (Nat.le_of_succ_le_succ le)]
          rw [result] at run
          exact run

def DuePrefix (s : Timers) : Prop :=
  s.nodes.Pairwise fun a b => s.remaining b ≤ 0 → s.remaining a ≤ 0

def NoneStuck (s : Timers) : Prop :=
  ∀ x ∈ s.nodes, s.remaining x ≤ 0 →
    ¬((s.timer x).autoCirculation = true ∧ (s.timer x).interval = 0)

def Admitted (s : Timers) : Prop :=
  ∀ x ∈ s.nodes, 0 ≤ (s.timer x).interval ∧ (s.timer x).interval < 9223372036854775808

/-- The drain loop runs at most once for each running timer and leaves none that is due. -/
def Drained (s : Timers) : Prop :=
  ∃ s' notified, drain s.nodes.length s = .ok (s', notified) ∧
    ∀ x ∈ s'.nodes, 0 < s'.remaining x

def dueList (s : Timers) : List Nat := s.nodes.filter (s.remaining · ≤ 0)

theorem dueList_congr {l : List Nat} (same : ∀ y ∈ l, s'.remaining y = s.remaining y) :
    l.filter (s'.remaining · ≤ 0) = l.filter (s.remaining · ≤ 0) :=
  List.filter_congr fun y mem => by rw [same y mem]

/-- An iteration takes the first of the due timers away, since one that is armed again
with a positive interval lies ahead. -/
theorem iteration_due {rest : List Nat} (wf : s.Wf) (front : s.nodes = x :: rest)
    (due : s.remaining x ≤ 0) (run : s.checkBody x = some s') (it : Iteration s x rest s')
    (order : s.DuePrefix) (admitted : s.Admitted) (free : s.NoneStuck) :
    s.dueList = x :: s'.dueList ∧ s'.DuePrefix := by
  have absent : x ∉ rest := (List.nodup_cons.mp (front ▸ wf.nodup)).1
  have others : ∀ y ∈ rest, s'.remaining y = s.remaining y := fun y mem =>
    it.remaining fun eq => absent (eq ▸ mem)
  have first : s.dueList = x :: rest.filter (s.remaining · ≤ 0) := by
    rw [dueList, front, List.filter_cons_of_pos (by simpa using due)]
  have tail : rest.Pairwise fun a b => s'.remaining b ≤ 0 → s'.remaining a ≤ 0 := by
    rw [DuePrefix, front] at order
    refine (List.pairwise_cons.mp order).2.imp_of_mem fun inA inB h => ?_
    rwa [others _ inA, others _ inB]
  cases attr : (s.timer x).autoCirculation with
  | false =>
    obtain ⟨s₁, run₁, -, -, -, nodes⟩ := checkBody_once wf front attr
    cases run.symm.trans run₁
    refine ⟨?_, ?_⟩
    · rw [first, dueList, nodes, dueList_congr others]
    · rwa [DuePrefix, nodes]
  | true =>
    obtain ⟨s₁, before, after, run₁, -, now, timer, split, nodes, -, right⟩ :=
      checkBody_periodic wf front attr
    cases run.symm.trans run₁
    have mem : x ∈ s.nodes := by simp [front]
    have ahead : 0 < s'.remaining x := by
      obtain ⟨nonneg, word⟩ := admitted x mem
      have positive : (s.timer x).interval ≠ 0 := fun zero => free x mem due ⟨attr, zero⟩
      rw [remaining_armed due nonneg word (by simp [timer, armed]) now]
      split
      · exact And.right ‹_›
      · omega
    have later : ∀ y ∈ after, 0 < s'.remaining y := by
      rw [split] at tail
      obtain ⟨-, tail, -⟩ := List.pairwise_append.mp tail
      cases after with
      | nil => simp
      | cons b after =>
        have head : s'.remaining x < s'.remaining b := right b rfl
        intro y mem
        rcases List.mem_cons.mp mem with rfl | mem
        · omega
        · by_contra notLater
          have := (List.pairwise_cons.mp tail).1 y mem (by omega)
          omega
    refine ⟨?_, ?_⟩
    · rw [first, dueList, nodes, List.filter_append, List.filter_cons_of_neg (by simpa using ahead),
        ← List.filter_append, ← split, dueList_congr others]
    · rw [split] at tail
      obtain ⟨left, right, across⟩ := List.pairwise_append.mp tail
      rw [DuePrefix, nodes]
      refine List.pairwise_append.mpr ⟨left, List.pairwise_cons.mpr ⟨fun y mem => ?_, right⟩,
        fun a inL b inR => ?_⟩
      · have := later y mem
        omega
      · rcases List.mem_cons.mp inR with rfl | inR
        · omega
        · exact across a inL b inR

theorem Iteration.admitted {rest : List Nat} (it : Iteration s x rest s')
    (front : s.nodes = x :: rest) (admitted : s.Admitted) : s'.Admitted := fun y mem => by
  rw [it.interval]
  refine admitted y ?_
  rw [front, List.mem_cons]
  exact it.only y mem

theorem Iteration.noneStuck {rest : List Nat} (it : Iteration s x rest s')
    (front : s.nodes = x :: rest) (due : s.remaining x ≤ 0) (free : s.NoneStuck) :
    s'.NoneStuck := fun y mem late stuck => by
  rw [it.interval, it.autoCirculation] at stuck
  by_cases eq : y = x
  · subst eq
    exact free y (by simp [front]) due stuck
  · refine free y ?_ (by rwa [← it.remaining eq]) stuck
    rw [front, List.mem_cons]
    exact it.only y mem

theorem mem_dueList : x ∈ s.dueList ↔ x ∈ s.nodes ∧ s.remaining x ≤ 0 := by
  simp [dueList]

theorem ahead_of_none (wf : s.Wf) (order : s.DuePrefix) (none : s.dueFirst = none) :
    ∀ x ∈ s.nodes, 0 < s.remaining x := by
  have first := (dueFirst_eq_none wf).mp none
  rw [DuePrefix] at order
  cases front : s.nodes with
  | nil => simp
  | cons a rest =>
    rw [front] at order first
    have ahead : 0 < s.remaining a := first a rfl
    intro x mem
    rcases List.mem_cons.mp mem with rfl | mem
    · exact ahead
    · have := (List.pairwise_cons.mp order).1 x mem
      omega

theorem drain_ends (wf : s.Wf) (order : s.DuePrefix) (admitted : s.Admitted)
    (free : s.NoneStuck) {fuel : Nat} (enough : s.dueList.length ≤ fuel) :
    ∃ s', drain fuel s = .ok (s', s.dueList) ∧ ∀ x ∈ s'.nodes, 0 < s'.remaining x := by
  induction fuel generalizing s with
  | zero =>
    have none : s.dueList = [] := List.eq_nil_of_length_eq_zero (Nat.le_zero.mp enough)
    have ahead : ∀ x ∈ s.nodes, 0 < s.remaining x := fun x mem => by
      by_contra late
      exact List.not_mem_nil (none ▸ mem_dueList.mpr ⟨mem, by omega⟩)
    refine ⟨s, ?_, ahead⟩
    rw [drain, (dueFirst_eq_none wf).mpr fun x mem => ahead x (List.mem_of_mem_head? mem), none]
  | succ fuel ih =>
    cases late : s.dueFirst with
    | none =>
      have ahead := ahead_of_none wf order late
      have none : s.dueList = [] := List.filter_eq_nil_iff.mpr fun x mem => by
        simpa using ahead x mem
      exact ⟨s, by rw [drain, late, none], ahead⟩
    | some x =>
      obtain ⟨rest, front, due⟩ := front_of_due wf late
      obtain ⟨s₁, body, it⟩ := checkBody_ok wf front
      obtain ⟨list, order'⟩ := iteration_due wf front due body it order admitted free
      have shorter : s₁.dueList.length ≤ fuel := by
        rw [list, List.length_cons] at enough
        omega
      obtain ⟨s', more, ahead⟩ := ih it.wf order' (it.admitted front admitted)
        (it.noneStuck front due free) shorter
      refine ⟨s', ?_, ahead⟩
      rw [drain, late]
      simp [body, more, list, Except.map]

theorem stuck_of_not_noneStuck (wf : s.Wf) (stuck : ¬s.NoneStuck) {fuel : Nat}
    {notified : List Nat} (run : drain fuel s = .ok (s', notified)) :
    ∃ x ∈ s'.nodes, s'.remaining x ≤ 0 := by
  let I : Timers → Prop := fun s => ∃ x ∈ s.nodes, s.remaining x ≤ 0 ∧
    (s.timer x).autoCirculation = true ∧ (s.timer x).interval = 0
  have start : I s := by
    simpa [NoneStuck, I] using stuck
  have kept : ∀ {s x rest s'}, s.Wf → I s → s.nodes = x :: rest → s.remaining x ≤ 0 →
      s.checkBody x = some s' → Iteration s x rest s' → I s' := by
    rintro s x rest s' wf ⟨y, mem, late, auto, zero⟩ front due body it
    by_cases eq : y = x
    · subst eq
      obtain ⟨s₁, before, after, run₁, -, now, timer, -⟩ := checkBody_periodic wf front auto
      cases body.symm.trans run₁
      refine ⟨y, it.back.mpr auto, ?_, by rwa [it.autoCirculation], by rwa [it.interval]⟩
      rw [remaining_armed due (by omega) (by omega) (by simp [timer, armed]) now]
      split <;> omega
    · refine ⟨y, it.kept.subset ?_, by rwa [it.remaining eq], by rwa [it.autoCirculation],
        by rwa [it.interval]⟩
      rw [front] at mem
      exact (List.mem_cons.mp mem).resolve_left eq
  obtain ⟨⟨x, mem, due, -⟩, -⟩ := drain_kept kept wf start run
  exact ⟨x, mem, due⟩

/-- A due timer behind one that is not due stays there. -/
theorem late_of_not_duePrefix (wf : s.Wf) (disorder : ¬s.DuePrefix) {fuel : Nat}
    {notified : List Nat} (run : drain fuel s = .ok (s', notified)) :
    ∃ x ∈ s'.nodes, s'.remaining x ≤ 0 := by
  let I : Timers → Prop := fun s => ∃ a b, [a, b].Sublist s.nodes ∧ 0 < s.remaining a ∧
    s.remaining b ≤ 0
  have start : I s := by
    rw [DuePrefix, List.pairwise_iff_forall_sublist] at disorder
    push Not at disorder
    obtain ⟨a, b, sub, due, ahead⟩ := disorder
    exact ⟨a, b, sub, by omega, due⟩
  have kept : ∀ {s x rest s'}, s.Wf → I s → s.nodes = x :: rest → s.remaining x ≤ 0 →
      s.checkBody x = some s' → Iteration s x rest s' → I s' := by
    rintro s x rest s' wf ⟨a, b, sub, ahead, late⟩ front due - it
    have ne : a ≠ x := fun eq => by
      rw [eq] at ahead
      omega
    rw [front] at sub
    have sub : [a, b].Sublist rest := by
      rcases List.sublist_cons_iff.mp sub with sub | ⟨_, eq, -⟩
      · exact sub
      · exact absurd (List.cons.inj eq).1 ne
    have other : b ≠ x := fun eq => by
      have absent : x ∉ rest := (List.nodup_cons.mp (front ▸ wf.nodup)).1
      exact absent (eq ▸ sub.subset (by simp))
    exact ⟨a, b, sub.trans it.kept, by rwa [it.remaining ne], by rwa [it.remaining other]⟩
  obtain ⟨⟨a, b, sub, -, due⟩, -⟩ := drain_kept kept wf start run
  exact ⟨b, sub.subset (by simp), due⟩

theorem drained_iff (wf : s.Wf) (admitted : s.Admitted) :
    s.Drained ↔ s.NoneStuck ∧ s.DuePrefix := by
  constructor
  · rintro ⟨s', notified, run, ahead⟩
    constructor
    · by_contra stuck
      obtain ⟨x, mem, due⟩ := stuck_of_not_noneStuck wf stuck run
      exact absurd (ahead x mem) (by omega)
    · by_contra disorder
      obtain ⟨x, mem, due⟩ := late_of_not_duePrefix wf disorder run
      exact absurd (ahead x mem) (by omega)
  · rintro ⟨free, order⟩
    obtain ⟨s', run, ahead⟩ := drain_ends wf order admitted free (List.length_filter_le ..)
    exact ⟨s', _, run, ahead⟩

end Timers

end EventHub.Timer
