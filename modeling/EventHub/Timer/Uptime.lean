import EventHub.Timer.Runs
import Mathlib.Data.List.Chain

/-! A clock that counts from the start of the host and stays below `2 ^ 63`, as the one of Linux
does. Between two calls the running timers expire less than `2 ^ 63` after the last reading, and
the tree is in the order of their times. -/

namespace EventHub.Timer
open RbTree Library

/-- An interval that is given is an `eh_sclock_t`. -/
def Op.word : Op → Bool
  | .configInterval _ interval => interval < 9223372036854775808
  | _ => true

def Timers.firstUpdated (s : Timers) (now : Nat) : Op → Bool
  | .start x => (s.ehTimerStart x now).any (·.2 = firstTimerUpdate)
  | .restart x => (s.ehTimerRestart x now).any (·.2 = firstTimerUpdate)
  | _ => false

namespace Timers
variable {s s' : Timers} {x y base now : Nat}

structure Ordered (s : Timers) : Prop where
  wf : s.Wf
  word : ∀ x, (s.timer x).interval < 9223372036854775808
  expire : ∀ x ∈ s.nodes, (s.timer x).expire < clockSpan
  sorted : (s.nodes.map s.remaining).Pairwise (· ≤ ·)

structure Uptime (s : Timers) : Prop where
  ordered : s.Ordered
  early : s.timerNow < 9223372036854775808
  ahead : ∀ x ∈ s.nodes, (s.timer x).expire < s.timerNow + 9223372036854775808

def Reads (s : Timers) (now : Nat) : Prop :=
  s.timerNow ≤ now ∧ now < 9223372036854775808

instance (s : Timers) (now : Nat) : Decidable (s.Reads now) := inferInstanceAs (Decidable (_ ∧ _))

/-- No timer expires before the time `d`. -/
def NotBefore (s : Timers) (d : Nat) : Prop := ∀ x ∈ s.nodes, d ≤ (s.timer x).expire

theorem absent_of_idle (wf : s.Wf) (idle : (s.timer x).running = false) : x ∉ s.nodes := fun mem =>
  by
    rw [(wf.running x).mpr mem] at idle
    cases idle

namespace Ordered

theorem startNoLock (h : s.Ordered) (idle : (s.timer x).running = false) (base : Nat) :
    ∃ s' before after, s.startNoLock base x =
        some (s', if before.isEmpty then firstTimerUpdate else retOk) ∧ s'.Ordered ∧
      s'.timerNow = s.timerNow ∧
      s'.timer = s.armed x ((base + toClock (s.timer x).interval) % clockSpan) ∧
      s.nodes = before ++ after ∧ s'.nodes = before ++ x :: after := by
  obtain ⟨s', before, after, run, wf, now, timer, nodes, nodes', left, right⟩ :=
    startNoLock_spec h.wf idle base
  have absent := absent_of_idle h.wf idle
  have other : ∀ y ∈ s.nodes, s'.timer y = s.timer y := fun y mem => by
    have ne : y ≠ x := fun eq => absent (eq ▸ mem)
    rw [timer, armed, Function.update_of_ne ne]
  have same : ∀ y ∈ s.nodes, s'.remaining y = s.remaining y := fun y mem =>
    remaining_congr (by rw [other y mem]) now
  have expire : ∀ y ∈ s'.nodes, (s'.timer y).expire < clockSpan := by
    intro y mem
    rw [nodes', List.mem_append, List.mem_cons, or_left_comm, ← List.mem_append, ← nodes] at mem
    rcases mem with rfl | mem
    · rw [timer, armed, Function.update_self]
      exact Nat.mod_lt _ (by decide)
    · rw [other y mem]
      exact h.expire y mem
  have sorted : (s'.nodes.map s'.remaining).Pairwise (· ≤ ·) := by
    have chain := List.isChain_iff_pairwise.mpr h.sorted
    rw [nodes, List.map_append] at chain
    obtain ⟨first, last, -⟩ := List.isChain_append.mp chain
    have listed : s'.nodes.map s'.remaining =
        before.map s.remaining ++ s'.remaining x :: after.map s.remaining := by
      rw [nodes', List.map_append, List.map_cons,
        List.map_congr_left fun y mem => same y (nodes ▸ List.mem_append_left _ mem),
        List.map_congr_left fun y mem => same y (nodes ▸ List.mem_append_right _ mem)]
    rw [listed, ← List.isChain_iff_pairwise]
    refine List.isChain_append.mpr ⟨first, List.isChain_cons.mpr ⟨fun e mem => ?_, last⟩,
      fun e mem e' mem' => ?_⟩
    · rw [List.head?_map] at mem
      obtain ⟨y, head, rfl⟩ := Option.map_eq_some_iff.mp mem
      rw [← same y (nodes ▸ List.mem_append_right _ (List.mem_of_mem_head? head))]
      exact Int.le_of_lt (right y head)
    · rw [List.getLast?_map] at mem
      obtain ⟨y, getLast, rfl⟩ := Option.map_eq_some_iff.mp mem
      cases mem'
      rw [← same y (nodes ▸ List.mem_append_left _ (List.mem_of_getLast? getLast))]
      exact left y getLast
  have word : ∀ y, (s'.timer y).interval < 9223372036854775808 := fun y => by
    rw [timer, armed_interval]
    exact h.word y
  exact ⟨s', before, after, run, ⟨wf, word, expire, sorted⟩, now, timer, nodes, nodes'⟩

theorem delNode (h : s.Ordered) (mem : x ∈ s.nodes) :
    ∃ s', s.delNode x = some s' ∧ s'.Ordered ∧ s'.timerNow = s.timerNow ∧
      s'.timer = Function.update s.timer x { s.timer x with running := false } ∧
      s'.nodes.Sublist s.nodes := by
  obtain ⟨s', before, after, run, wf, now, timer, nodes, nodes'⟩ := delNode_spec h.wf mem
  have sub : s'.nodes.Sublist s.nodes := by
    rw [nodes, nodes']
    exact (List.sublist_cons_self x after).append_left before
  have expire : ∀ y, (s'.timer y).expire = (s.timer y).expire := fun y => by
    rw [timer, Function.apply_update (fun _ => EhEventTimer.expire)]
    exact congrFun (Function.update_eq_self ..) y
  have interval : ∀ y, (s'.timer y).interval = (s.timer y).interval := fun y => by
    rw [timer, Function.apply_update (fun _ => EhEventTimer.interval)]
    exact congrFun (Function.update_eq_self x fun y => (s.timer y).interval) y
  have same : s'.remaining = s.remaining := funext fun y => remaining_congr (expire y) now
  refine ⟨s', run, ⟨wf, fun y => ?_, fun y memY => ?_, ?_⟩, now, timer, sub⟩
  · rw [interval]
    exact h.word y
  · rw [expire]
    exact h.expire y (sub.subset memY)
  · rw [same]
    exact h.sorted.sublist (sub.map _)

theorem drain (h : s.Ordered) {fuel : Nat} {notified : List Nat}
    (run : Timers.drain fuel s = .ok (s', notified)) :
    s'.Ordered ∧ s'.timerNow = s.timerNow ∧ s'.dueFirst = none := by
  have kept : (s'.Ordered ∧ s'.timerNow = s.timerNow) ∧ s'.Wf ∧ s'.dueFirst = none := by
    refine drain_kept (I := fun t => t.Ordered ∧ t.timerNow = s.timerNow) ?_ h.wf ⟨h, rfl⟩ run
    intro t x rest t' _ ⟨order, now⟩ front _ body it
    refine ⟨?_, it.timerNow.trans now⟩
    obtain ⟨t₁, del, order₁, -, timer₁, -⟩ := order.delNode (x := x) (by simp [front])
    rw [checkBody, del, Option.bind_some] at body
    split at body
    · have idle : (t₁.timer x).running = false := by simp [timer₁]
      obtain ⟨t₂, before, after, start, order₂, -⟩ := order₁.startNoLock idle (t₁.base x)
      rw [start] at body
      cases body
      exact order₂
    · cases body
      exact order₁
  exact ⟨kept.1.1, kept.1.2, kept.2.2⟩

end Ordered

theorem diff_exact {e t : Nat} (upper : e < t + 9223372036854775808)
    (early : t < 9223372036854775808) : ehDiffTime e t = e - t :=
  bmod_exact (by omega) (by omega)

namespace Uptime

theorem remaining (h : s.Uptime) (mem : x ∈ s.nodes) :
    s.remaining x = (s.timer x).expire - s.timerNow :=
  diff_exact (h.ahead x mem) h.early

theorem expire_le (h : s.Uptime) {before after : List Nat} (nodes : s.nodes = before ++ x :: after)
    (mem : y ∈ after) : (s.timer x).expire ≤ (s.timer y).expire := by
  have sorted := h.ordered.sorted
  rw [nodes, List.map_append, List.map_cons] at sorted
  have order := (List.pairwise_cons.mp (List.pairwise_append.mp sorted).2.1).1 _
    (List.mem_map_of_mem mem)
  rw [h.remaining (x := x) (by simp [nodes]), h.remaining (x := y) (by simp [nodes, mem])] at order
  omega

theorem readClock (h : s.Uptime) (reads : s.Reads now) : (s.readClock now).Uptime := by
  have ahead : ∀ x ∈ s.nodes, (s.timer x).expire < now + 9223372036854775808 := fun x mem =>
    Nat.lt_of_lt_of_le (h.ahead x mem) (Nat.add_le_add_right reads.1 _)
  have left : ∀ x ∈ s.nodes,
      (s.readClock now).remaining x = s.remaining x - ((now : Int) - s.timerNow) := by
    intro x mem
    have exact : (s.readClock now).remaining x = (s.timer x).expire - now :=
      diff_exact (ahead x mem) reads.2
    rw [exact, h.remaining mem]
    omega
  refine ⟨⟨h.ordered.wf.readClock now, h.ordered.word, h.ordered.expire, ?_⟩, reads.2, ahead⟩
  have sorted := h.ordered.sorted
  rw [List.pairwise_map] at sorted
  rw [show (s.readClock now).nodes = s.nodes from rfl, List.pairwise_map]
  refine sorted.imp_of_mem fun memA memB le => ?_
  rw [left _ memA, left _ memB]
  omega

/-- A timer is started at the time of the clock. It becomes the first one, or expires no earlier
than one that was there. -/
theorem startNoLock (h : s.Uptime) (idle : (s.timer x).running = false)
    (nonneg : 0 ≤ (s.timer x).interval) :
    ∃ s' ret, s.startNoLock s.timerNow x = some (s', ret) ∧ s'.Uptime ∧
      (ret ≠ firstTimerUpdate → ∀ d, s.NotBefore d → s'.NotBefore d) := by
  obtain ⟨s', before, after, run, order, now, timer, nodes, nodes'⟩ :=
    h.ordered.startNoLock idle s.timerNow
  have absent := absent_of_idle h.ordered.wf idle
  have early := h.early
  have word := h.ordered.word x
  have low : (s.timerNow + toClock (s.timer x).interval) % clockSpan =
      s.timerNow + (s.timer x).interval.toNat := by
    rw [toClock, Int.emod_eq_of_lt nonneg (by unfold clockSpan; omega), Nat.mod_eq_of_lt]
    unfold clockSpan
    omega
  rw [low] at timer
  have members : ∀ y, y ∈ s'.nodes ↔ y = x ∨ y ∈ s.nodes := by
    intro y
    rw [nodes', nodes, List.mem_append, List.mem_cons, List.mem_append]
    tauto
  have own : (s'.timer x).expire = s.timerNow + (s.timer x).interval.toNat := by
    rw [timer, armed, Function.update_self]
  have old : ∀ y ∈ s.nodes, (s'.timer y).expire = (s.timer y).expire := fun y mem => by
    have ne : y ≠ x := fun eq => absent (eq ▸ mem)
    rw [timer, armed, Function.update_of_ne ne]
  have up : s'.Uptime := by
    refine ⟨order, now ▸ early, fun y mem => ?_⟩
    rw [now]
    rcases (members y).mp mem with rfl | mem
    · rw [own]
      omega
    · rw [old y mem]
      exact h.ahead y mem
  refine ⟨s', _, run, up, fun later d bound y mem => ?_⟩
  rcases (members y).mp mem with rfl | mem
  · cases before with
    | nil => exact absurd rfl later
    | cons a before =>
      have mem : a ∈ s.nodes := by simp [nodes]
      have le : (s'.timer a).expire ≤ (s'.timer y).expire :=
        up.expire_le (show s'.nodes = [] ++ a :: (before ++ y :: after) from nodes') (by simp)
      rw [old a mem] at le
      exact (bound a mem).trans le
  · rw [old y mem]
    exact bound y mem

theorem delNode (h : s.Uptime) (mem : x ∈ s.nodes) :
    ∃ s', s.delNode x = some s' ∧ s'.Uptime ∧ s'.timerNow = s.timerNow ∧
      s'.timer = Function.update s.timer x { s.timer x with running := false } ∧
      ∀ d, s.NotBefore d → s'.NotBefore d := by
  obtain ⟨s', run, order, now, timer, sub⟩ := h.ordered.delNode mem
  have expire : ∀ y, (s'.timer y).expire = (s.timer y).expire := fun y => by
    rw [timer, Function.apply_update (fun _ => EhEventTimer.expire)]
    exact congrFun (Function.update_eq_self ..) y
  refine ⟨s', run, ⟨order, now ▸ h.early, fun y memY => ?_⟩, now, timer, fun d bound y memY => ?_⟩
  · rw [expire, now]
    exact h.ahead y (sub.subset memY)
  · rw [expire]
    exact bound y (sub.subset memY)

theorem setTimer (h : s.Uptime) {timer : EhEventTimer}
    (running : timer.running = (s.timer x).running)
    (word : timer.interval < 9223372036854775808)
    (expire : x ∈ s.nodes → timer.expire = (s.timer x).expire) :
    (s.setTimer x timer).Uptime ∧ ∀ d, s.NotBefore d → (s.setTimer x timer).NotBefore d := by
  have set : ∀ y, (s.setTimer x timer).timer y = if y = x then timer else s.timer y :=
    fun y => Function.update_apply s.timer x timer y
  have same : ∀ y ∈ s.nodes, ((s.setTimer x timer).timer y).expire = (s.timer y).expire := by
    intro y mem
    rw [set]
    split
    · next eq =>
      subst eq
      exact expire mem
    · rfl
  refine ⟨⟨⟨h.ordered.wf.setTimer running, fun y => ?_, fun y mem => ?_, ?_⟩, h.early,
    fun y mem => ?_⟩, fun d bound y mem => ?_⟩
  · rw [set]
    split
    · exact word
    · exact h.ordered.word y
  · rw [same y mem]
    exact h.ordered.expire y mem
  · have listed : s.nodes.map (s.setTimer x timer).remaining = s.nodes.map s.remaining :=
      List.map_congr_left fun y mem => remaining_congr (same y mem) rfl
    exact listed ▸ h.ordered.sorted
  · rw [same y mem]
    exact h.ahead y mem
  · rw [same y mem]
    exact bound y mem

theorem drain (h : s.Uptime) {fuel : Nat} {notified : List Nat}
    (run : Timers.drain fuel s = .ok (s', notified)) : s'.Uptime := by
  obtain ⟨order, now, none⟩ := h.ordered.drain run
  have early : s'.timerNow < 9223372036854775808 := now ▸ h.early
  have first := (dueFirst_eq_none order.wf).mp none
  have left : ∀ x ∈ s'.nodes, 0 < s'.remaining x := by
    intro x mem
    have sorted := order.sorted
    cases front : s'.nodes with
    | nil => simp [front] at mem
    | cons a rest =>
      rw [front] at mem first sorted
      have ahead : 0 < s'.remaining a := first a rfl
      rcases List.mem_cons.mp mem with rfl | mem
      · exact ahead
      · have le := (List.pairwise_cons.mp sorted).1 _ (List.mem_map_of_mem mem)
        omega
  refine ⟨order, early, fun x mem => ?_⟩
  by_contra far
  have span := order.expire x mem
  unfold clockSpan at span
  have positive := left x mem
  have wraps : s'.remaining x = (s'.timer x).expire - s'.timerNow - clockSpan := by
    rw [Timers.remaining, ehDiffTime, ← Int.sub_bmod_right]
    exact bmod_exact (by unfold clockSpan; omega) (by unfold clockSpan; omega)
  unfold clockSpan at wraps
  omega

theorem start (h : s.Uptime) (reads : s.Reads now) {ret : Int}
    (run : s.ehTimerStart x now = some (s', ret)) :
    s'.Uptime ∧ (ret ≠ firstTimerUpdate → ∀ d, s.NotBefore d → s'.NotBefore d) := by
  rcases ehTimerStart_cases s x now with ⟨-, same⟩ | ⟨-, -, same⟩ | ⟨nonneg, idle, start⟩
  · cases same.symm.trans run
    exact ⟨h, fun _ _ bound => bound⟩
  · cases same.symm.trans run
    exact ⟨h.readClock reads, fun _ _ bound => bound⟩
  · obtain ⟨t, r, run₁, up, kept⟩ := (h.readClock reads).startNoLock idle nonneg
    cases start.symm.trans run |>.symm.trans run₁
    exact ⟨up, fun later d bound => kept later d bound⟩

theorem stop (h : s.Uptime) {ret : Int} (run : s.ehTimerStop x = some (s', ret)) :
    s'.Uptime ∧ ∀ d, s.NotBefore d → s'.NotBefore d := by
  rw [ehTimerStop] at run
  split at run
  · next running =>
    obtain ⟨t, del, up, -, -, kept⟩ := h.delNode ((h.ordered.wf.running x).mp running)
    rw [del] at run
    cases run
    exact ⟨up, kept⟩
  · cases run
    exact ⟨h, fun _ bound => bound⟩

theorem restart (h : s.Uptime) (reads : s.Reads now) {ret : Int}
    (run : s.ehTimerRestart x now = some (s', ret)) :
    s'.Uptime ∧ (ret ≠ firstTimerUpdate → ∀ d, s.NotBefore d → s'.NotBefore d) := by
  rw [ehTimerRestart] at run
  split at run
  · next nonneg =>
    have read := h.readClock reads
    dsimp only at run
    split at run
    · next running =>
      obtain ⟨t, del, up, clock, timer, kept⟩ := read.delNode ((read.ordered.wf.running x).mp running)
      rw [show ({ s with timerNow := now } : Timers) = s.readClock now from rfl, del,
        Option.bind_some, show now = t.timerNow from clock.symm] at run
      obtain ⟨t', r, run₁, up', kept'⟩ := up.startNoLock (x := x) (by simp [timer])
        (by simpa [timer] using (show 0 ≤ ((s.readClock now).timer x).interval from nonneg))
      cases run.symm.trans run₁
      exact ⟨up', fun later d bound => kept' later d (kept d bound)⟩
    · next idle =>
      obtain ⟨t', r, run₁, up', kept⟩ := read.startNoLock (x := x) (Bool.not_eq_true _ ▸ idle) nonneg
      cases run.symm.trans run₁
      exact ⟨up', fun later d bound => kept later d bound⟩
  · cases run
    exact ⟨h, fun _ _ bound => bound⟩

theorem firstRemaining (h : s.Uptime) (reads : s.Reads now) :
    ∃ r, s.ehTimerGetFirstRemainingTime 1000000 now = some (s.readClock now, r) ∧
      0 ≤ r ∧ r ≤ 60000000 ∧ (0 < r → s.NotBefore (now + r.toNat)) := by
  have most : firstTimerMaxTime 1000000 = 60000000 := by decide
  have read := h.readClock reads
  have empty : s.timerTreeRoot.isEmpty = true ↔ s.nodes = [] := Root.isEmpty_iff _
  rw [ehTimerGetFirstRemainingTime, most]
  dsimp only
  cases front : s.nodes with
  | nil =>
    rw [if_pos (empty.mpr front)]
    refine ⟨_, rfl, by decide, by decide, fun _ x mem => ?_⟩
    simp [front] at mem
  | cons a rest =>
    have first : s.timerTreeRoot.leftmost = some a := by
      rw [leftmost_eq h.ordered.wf, front]
      rfl
    have left : (s.readClock now).remaining a = (s.timer a).expire - now :=
      read.remaining (x := a) (show a ∈ s.nodes by simp [front])
    have least : ∀ x ∈ s.nodes, (s.timer a).expire ≤ (s.timer x).expire := by
      intro x mem
      rw [front] at mem
      rcases List.mem_cons.mp mem with rfl | mem
      · exact Nat.le_refl _
      · exact h.expire_le (show s.nodes = [] ++ a :: rest from front) mem
    rw [if_neg (by simp [empty, front]), first, Option.map_some,
      show ({ s with timerNow := now } : Timers) = s.readClock now from rfl, left]
    refine ⟨_, rfl, ?_, ?_, fun positive x mem => ?_⟩
    · split_ifs <;> omega
    · split_ifs <;> omega
    · have le := least x mem
      split_ifs at positive ⊢ <;> omega

theorem exec (h : s.Uptime) {clocksPerSec : Nat} {op : Op} (word : op.word = true) (reads : s.Reads now)
    (single : ∀ fuel, op ≠ .check fuel) (run : exec clocksPerSec s now op = .ok s') :
    s'.Uptime ∧ (s.firstUpdated now op = false → ∀ d, s.NotBefore d → s'.NotBefore d) := by
  cases op with
  | start x =>
    obtain ⟨ret, run⟩ := called_eq_ok run
    obtain ⟨up, kept⟩ := h.start reads run
    exact ⟨up, fun later => kept (by simpa [firstUpdated, run] using later)⟩
  | stop x =>
    obtain ⟨ret, run⟩ := called_eq_ok run
    obtain ⟨up, kept⟩ := h.stop run
    exact ⟨up, fun _ => kept⟩
  | restart x =>
    obtain ⟨ret, run⟩ := called_eq_ok run
    obtain ⟨up, kept⟩ := h.restart reads run
    exact ⟨up, fun later => kept (by simpa [firstUpdated, run] using later)⟩
  | check fuel => exact absurd rfl (single fuel)
  | firstRemaining =>
    rw [firstRemaining_eq run]
    exact ⟨h.readClock reads, fun _ _ bound => bound⟩
  | configInterval x interval =>
    cases run
    obtain ⟨up, kept⟩ : (s.ehTimerConfigInterval x interval).Uptime ∧ _ :=
      h.setTimer rfl (of_decide_eq_true word) fun _ => rfl
    exact ⟨up, fun _ => kept⟩
  | setAttr x attr =>
    cases run
    obtain ⟨up, kept⟩ : (s.ehTimerSetAttr x attr).Uptime ∧ _ :=
      h.setTimer rfl (h.ordered.word x) fun _ => rfl
    exact ⟨up, fun _ => kept⟩

theorem initial {timer : Nat → EhEventTimer}
    (word : ∀ x, (timer x).interval < 9223372036854775808) : (Timers.initial timer).Uptime := by
  have none : (Timers.initial timer).nodes = [] := by
    simp [Timers.initial, nodes, Root.nodes_init]
  refine ⟨⟨.initial timer, word, ?_, ?_⟩, Nat.zero_lt_succ _, ?_⟩
  · simp [none]
  · simp [none]
  · simp [none]

end Uptime

end Timers

end EventHub.Timer
