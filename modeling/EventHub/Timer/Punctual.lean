import EventHub.Timer.Runs
import EventHub.Library.Agenda

/-! Time is unbounded here, and the running timers are an agenda of it. The code sees only
the low 64 bits, and yet keeps the agenda while no timer is `2 ^ 63` ticks or more from its
expiry. -/

namespace EventHub.Timer
open RbTree Library

/-- When a periodic timer that fires at `t` expires next. -/
def EhEventTimer.nextExpiry (timer : EhEventTimer) (t expiry : Nat) : Nat :=
  if timer.nowTimeBase = false ∧ t < expiry + timer.interval.toNat
  then expiry + timer.interval.toNat else t + timer.interval.toNat

def rearm (timer : Nat → EhEventTimer) (t x expiry : Nat) : Option Nat :=
  if (timer x).autoCirculation then some ((timer x).nextExpiry t expiry) else none

/-- A timer that has fired at `t`. -/
def EhEventTimer.fired (timer : EhEventTimer) (t expiry : Nat) : EhEventTimer :=
  if timer.autoCirculation
  then { timer with expire := timer.nextExpiry t expiry % clockSpan, running := true }
  else { timer with running := false }

/-- The timers keep the agenda: the tree lists it, and each word `expire` is the low part
of an expiry within `2 ^ 63` of the clock. -/
structure Keeps (s : Timers) (clock : Nat) (a : Agenda Nat Nat) : Prop where
  inv : s.Inv
  now : s.timerNow = clock % clockSpan
  nodes : s.nodes = a.keys
  expire : ∀ e ∈ a.entries, (s.timer e.key).expire = e.expiry % clockSpan
  window : ∀ e ∈ a.entries, e.expiry < clock + 9223372036854775808 ∧
    clock < e.expiry + 9223372036854775808

namespace Keeps
variable {s s' : Timers} {clock t x : Nat} {a : Agenda Nat Nat} {e : Entry Nat Nat}

theorem diff_exact {p q : Nat} (lower : q < p + 9223372036854775808)
    (upper : p < q + 9223372036854775808) :
    ehDiffTime (p % clockSpan) (q % clockSpan) = p - q := by
  simp only [ehDiffTime, Int.natCast_emod, Int.emod_sub_bmod, Int.sub_emod_bmod]
  exact bmod_exact (by omega) (by omega)

theorem remaining (h : Keeps s clock a) (mem : e ∈ a.entries) :
    s.remaining e.key = e.expiry - clock := by
  obtain ⟨upper, lower⟩ := h.window e mem
  rw [Timers.remaining, h.expire e mem, h.now, diff_exact lower upper]

theorem mem_nodes (h : Keeps s clock a) (mem : e ∈ a.entries) : e.key ∈ s.nodes := by
  rw [h.nodes]
  exact List.mem_map_of_mem mem

theorem entry_of_mem (h : Keeps s clock a) (mem : x ∈ s.nodes) :
    ∃ e ∈ a.entries, e.key = x := by
  rw [h.nodes] at mem
  exact List.mem_map.mp mem

theorem nodup (h : Keeps s clock a) : a.keys.Nodup := h.nodes ▸ h.inv.wf.nodup

theorem readClock (h : Keeps s clock a) (later : clock ≤ t)
    (punctual : ∀ e ∈ a.entries, t < e.expiry + 9223372036854775808) :
    Keeps (s.readClock (t % clockSpan)) t a where
  inv := h.inv.readClock _
  now := rfl
  nodes := h.nodes
  expire := h.expire
  window e mem := ⟨(h.window e mem).1.trans_le (by omega), punctual e mem⟩

theorem delNode (h : Keeps s clock a) (mem : x ∈ s.nodes) :
    ∃ s', s.delNode x = some s' ∧ Keeps s' clock (a.remove x) ∧
      s'.timer = Function.update s.timer x { s.timer x with running := false } := by
  obtain ⟨s', before, after, run, -, now, timer, nodes, nodes'⟩ :=
    Timers.delNode_spec h.inv.wf mem
  obtain ⟨s₁, run₁, inv, -⟩ := h.inv.delNode mem
  cases run.symm.trans run₁
  refine ⟨s', run, ⟨inv, now.trans h.now, ?_, fun e mem => ?_, fun e mem => ?_⟩, timer⟩
  · have nodup := h.inv.wf.nodup
    rw [nodes] at nodup
    have absent := (List.nodup_cons.mp (List.nodup_middle.mp nodup)).1
    have left : before.filter (· ≠ x) = before := List.filter_eq_self.mpr fun y inL => by
      simpa using fun eq : y = x => absent (eq ▸ List.mem_append_left _ inL)
    have right : after.filter (· ≠ x) = after := List.filter_eq_self.mpr fun y inR => by
      simpa using fun eq : y = x => absent (eq ▸ List.mem_append_right _ inR)
    rw [Agenda.keys_remove, ← h.nodes, nodes', nodes, List.filter_append,
      List.filter_cons_of_neg (by simp), left, right]
  · have := List.mem_filter.mp mem
    rw [timer, Function.update_of_ne (by simpa using this.2)]
    exact h.expire e this.1
  · exact h.window e (List.mem_of_mem_filter mem)

theorem startNoLock (h : Keeps s clock a) (idle : (s.timer x).running = false)
    (nonneg : 0 ≤ (s.timer x).interval) {base expiry : Nat}
    (low : (base + toClock (s.timer x).interval) % clockSpan = expiry % clockSpan)
    (upper : expiry < clock + 9223372036854775808)
    (lower : clock < expiry + 9223372036854775808) :
    ∃ s' ret, s.startNoLock base x = some (s', ret) ∧ Keeps s' clock (a.add x expiry) ∧
      s'.timer = s.armed x (expiry % clockSpan) := by
  obtain ⟨s', before, after, run, -, now, timer, nodes, nodes', left, right⟩ :=
    Timers.startNoLock_spec h.inv.wf idle base
  obtain ⟨s₁, ret, run₁, inv⟩ := h.inv.startNoLock idle nonneg base
  cases run.symm.trans run₁
  rw [low] at timer
  have absent : x ∉ s.nodes := fun mem => by
    have := (h.inv.wf.running x).mpr mem
    rw [idle] at this
    cases this
  have expire : ∀ e ∈ (a.add x expiry).entries,
      (s'.timer e.key).expire = e.expiry % clockSpan := by
    intro e mem
    rw [Agenda.entries_add, Agenda.mem_place] at mem
    rcases mem with rfl | mem
    · simp [timer, Timers.armed]
    · have ne : e.key ≠ x := fun eq => absent (eq ▸ h.mem_nodes mem)
      rw [timer, Timers.armed, Function.update_of_ne ne]
      exact h.expire e mem
  have window : ∀ e ∈ (a.add x expiry).entries, e.expiry < clock + 9223372036854775808 ∧
      clock < e.expiry + 9223372036854775808 := by
    intro e mem
    rw [Agenda.entries_add, Agenda.mem_place] at mem
    rcases mem with rfl | mem
    · exact ⟨upper, lower⟩
    · exact h.window e mem
  have left_over : ∀ e ∈ (a.add x expiry).entries, s'.remaining e.key = e.expiry - clock :=
    fun e mem => by
      obtain ⟨upper, lower⟩ := window e mem
      rw [Timers.remaining, expire e mem, now.trans h.now, diff_exact lower upper]
  obtain ⟨l, k, split, rfl, rfl⟩ := List.map_eq_append_iff.mp (h.nodes.symm.trans nodes)
  have new : (⟨x, expiry, a.adds⟩ : Entry Nat Nat) ∈ (a.add x expiry).entries :=
    Agenda.mem_place.mpr (.inl rfl)
  have old : ∀ e ∈ a.entries, e ∈ (a.add x expiry).entries := fun e mem =>
    Agenda.mem_place.mpr (.inr mem)
  have placed : (a.add x expiry).entries = l ++ ⟨x, expiry, a.adds⟩ :: k := by
    rw [Agenda.entries_add, split]
    refine Agenda.place_between (split ▸ a.sorted) (fun e last => ?_) fun e head => ?_
    · have mem : e ∈ a.entries := split ▸ List.mem_append_left _ (List.mem_of_getLast? last)
      have := left e.key (by rw [List.getLast?_map, last]; rfl)
      rw [left_over e (old e mem), left_over _ new] at this
      dsimp only at this ⊢
      omega
    · have mem : e ∈ a.entries := split ▸ List.mem_append_right _ (List.mem_of_head? head)
      have := right e.key (by rw [List.head?_map, head]; rfl)
      rw [left_over e (old e mem), left_over _ new] at this
      dsimp only at this ⊢
      omega
  refine ⟨s', _, run, ⟨inv, now.trans h.now, ?_, expire, window⟩, timer⟩
  rw [nodes', Agenda.keys, placed, List.map_append, List.map_cons]

theorem toClock_toNat {i : Int} (nonneg : 0 ≤ i) (word : i < 9223372036854775808) :
    toClock i = i.toNat := by
  rw [toClock, Int.emod_eq_of_lt nonneg (by unfold clockSpan; omega)]

theorem base_eq (h : Keeps s clock a) (mem : e ∈ a.entries) (due : e.expiry ≤ clock)
    (s' : Timers) (now : s'.timerNow = s.timerNow)
    (same : s'.timer e.key = { s.timer e.key with running := false }) :
    (s'.base e.key + toClock (s.timer e.key).interval) % clockSpan =
      (s.timer e.key).nextExpiry clock e.expiry % clockSpan := by
  have nonneg := h.inv.nonneg e.key (h.mem_nodes mem)
  have word := h.inv.word e.key
  obtain ⟨-, window⟩ := h.window e mem
  have ahead : ehDiffTime ((e.expiry % clockSpan + toClock (s.timer e.key).interval) %
      clockSpan) (clock % clockSpan) = e.expiry + (s.timer e.key).interval.toNat - clock := by
    rw [toClock_toNat nonneg word, Nat.mod_add_mod]
    have := diff_exact (p := e.expiry + (s.timer e.key).interval.toNat) (q := clock)
      (by omega) (by omega)
    rw [this]
    omega
  have base : s'.base e.key = if (s.timer e.key).nowTimeBase then s'.timerNow
      else if ehDiffTime (((s.timer e.key).expire + toClock (s.timer e.key).interval) %
        clockSpan) s'.timerNow > 0 then (s.timer e.key).expire else s'.timerNow := by
    rw [Timers.base, same]
    rfl
  rw [base, now, h.now, h.expire e mem, ahead, EhEventTimer.nextExpiry,
    toClock_toNat nonneg word]
  cases (s.timer e.key).nowTimeBase with
  | true => simp
  | false =>
    by_cases keep : clock < e.expiry + (s.timer e.key).interval.toNat
    · rw [if_neg (by decide), if_pos (by omega), if_pos ⟨rfl, keep⟩, Nat.mod_add_mod]
    · rw [if_neg (by decide), if_neg (by omega), if_neg (fun h => keep h.2), Nat.mod_add_mod]

theorem nextExpiry_ahead (timer : EhEventTimer) (positive : 0 < timer.interval) (t q : Nat) :
    t < timer.nextExpiry t q := by
  rw [EhEventTimer.nextExpiry]
  split
  · exact And.right ‹_›
  · omega

theorem checkBody (h : Keeps s clock a) (positive : ∀ x, 0 < (s.timer x).interval)
    (mem : e ∈ a.entries) (due : e.expiry ≤ clock) :
    ∃ s', s.checkBody e.key = some s' ∧
      Keeps s' clock (a.fireOne (rearm s.timer clock) e) ∧
      s'.timer = Function.update s.timer e.key ((s.timer e.key).fired clock e.expiry) := by
  obtain ⟨s₁, del, h₁, timer₁⟩ := h.delNode (h.mem_nodes mem)
  have same : s₁.timer e.key = { s.timer e.key with running := false } := by simp [timer₁]
  have now : s₁.timerNow = s.timerNow := h₁.now.trans h.now.symm
  have attr : (s₁.timer e.key).autoCirculation = (s.timer e.key).autoCirculation := by
    rw [same]
    rfl
  rw [Timers.checkBody, del, Option.bind_some, attr, Agenda.fireOne, rearm,
    EhEventTimer.fired]
  cases auto : (s.timer e.key).autoCirculation with
  | false => exact ⟨s₁, rfl, h₁, timer₁⟩
  | true =>
    have interval : (s₁.timer e.key).interval = (s.timer e.key).interval := by rw [same]
    have low := h.base_eq mem due s₁ now same
    have word := h.inv.word e.key
    have pos := positive e.key
    have lower := nextExpiry_ahead (s.timer e.key) pos clock e.expiry
    have upper : (s.timer e.key).nextExpiry clock e.expiry <
        clock + 9223372036854775808 := by
      rw [EhEventTimer.nextExpiry]
      split <;> omega
    obtain ⟨s₂, ret, start, h₂, timer₂⟩ := h₁.startNoLock (x := e.key) (by rw [same])
      (by rw [interval]; exact pos.le) (by rw [interval]; exact low) upper (by omega)
    refine ⟨s₂, by rw [start]; rfl, h₂, ?_⟩
    rw [timer₂, Timers.armed, same, timer₁, Function.update_idem]
    rfl

theorem rearm_fired (timer : Nat → EhEventTimer) (x t q : Nat) :
    rearm (Function.update timer x ((timer x).fired t q)) t = rearm timer t := by
  have attr : ∀ timer : EhEventTimer, (timer.fired t q).autoCirculation =
      timer.autoCirculation ∧ (timer.fired t q).nextExpiry = timer.nextExpiry := fun timer => by
    rw [EhEventTimer.fired]
    split <;> exact ⟨rfl, rfl⟩
  funext y expiry
  by_cases eq : y = x
  · rw [eq, rearm, rearm, Function.update_self, (attr _).1, (attr _).2]
  · rw [rearm, rearm, Function.update_of_ne eq]

theorem fired_interval (timer : EhEventTimer) (t q : Nat) :
    (timer.fired t q).interval = timer.interval := by
  rw [EhEventTimer.fired]
  split <;> rfl

theorem drain (h : Keeps s clock a) (positive : ∀ x, 0 < (s.timer x).interval) {fuel : Nat}
    (enough : (a.due clock).length ≤ fuel) :
    ∃ s', Timers.drain fuel s = .ok (s', (a.due clock).map Entry.key) ∧
      Keeps s' clock (a.fire clock (rearm s.timer clock)) ∧
      (a.fire clock (rearm s.timer clock)).due clock = [] ∧
      (∀ y ∉ (a.due clock).map Entry.key, s'.timer y = s.timer y) ∧
      ∀ e ∈ a.due clock, s'.timer e.key = (s.timer e.key).fired clock e.expiry := by
  generalize list : a.due clock = ds at enough ⊢
  induction ds generalizing s a fuel with
  | nil =>
    have none : s.dueFirst = none := by
      refine (Timers.dueFirst_eq_none h.inv.wf).mpr fun x first => ?_
      obtain ⟨e, mem, rfl⟩ := h.entry_of_mem (List.mem_of_head? first)
      rw [h.remaining mem]
      have notDue : ¬e.expiry ≤ clock := fun le =>
        List.not_mem_nil (list ▸ Agenda.mem_due.mpr ⟨mem, le⟩)
      omega
    rw [Agenda.fire_nil list]
    refine ⟨s, ?_, h, list, fun _ _ => rfl, by simp⟩
    cases fuel <;> rw [Timers.drain, none] <;> rfl
  | cons e ds ih =>
    obtain ⟨later, front, due, -⟩ := Agenda.due_eq_cons list
    have mem : e ∈ a.entries := by simp [front]
    have first : s.dueFirst = some e.key := by
      refine (Timers.dueFirst_eq_some h.inv.wf).mpr ⟨?_, ?_⟩
      · rw [h.nodes, Agenda.keys, front]
        rfl
      · rw [h.remaining mem]
        omega
    have ahead : ∀ next, rearm s.timer clock e.key e.expiry = some next → clock < next := by
      intro next again
      rw [rearm] at again
      split at again
      · cases again
        exact nextExpiry_ahead _ (positive e.key) ..
      · cases again
    have absent : e.key ∉ ds.map Entry.key := by
      have nodup := h.nodup
      rw [Agenda.keys, front, List.map_cons, List.nodup_cons] at nodup
      refine fun inDs => nodup.1 ?_
      obtain ⟨later', front', -, tail⟩ := Agenda.due_eq_cons list
      cases front.symm.trans front'
      rw [← tail] at inDs
      exact (List.Sublist.map Entry.key List.filter_sublist).subset inDs
    obtain ⟨s₁, body, h₁, timer₁⟩ := h.checkBody positive mem due
    cases fuel with
    | zero => simp at enough
    | succ fuel =>
      have rest := Agenda.due_fireOne h.nodup list ahead
      have positive₁ : ∀ x, 0 < (s₁.timer x).interval := fun x => by
        rw [timer₁]
        by_cases eq : x = e.key
        · rw [eq, Function.update_self, fired_interval]
          exact positive e.key
        · rw [Function.update_of_ne eq]
          exact positive x
      obtain ⟨s', run, h', none, other, fires⟩ := ih h₁ positive₁ rest
        (Nat.le_of_succ_le_succ enough)
      have again : rearm s₁.timer clock = rearm s.timer clock := by rw [timer₁, rearm_fired]
      rw [again, ← Agenda.fire_cons h.nodup list ahead] at h' none
      refine ⟨s', ?_, h', none, fun y notDue => ?_, fun b inDue => ?_⟩
      · rw [Timers.drain, first]
        simp only [body, run]
        rfl
      · rw [List.map_cons, List.mem_cons, not_or] at notDue
        rw [other y notDue.2, timer₁, Function.update_of_ne notDue.1]
      · rcases List.mem_cons.mp inDue with rfl | inDs
        · rw [other b.key absent, timer₁, Function.update_self]
        · have ne : b.key ≠ e.key := fun eq => absent (eq ▸ List.mem_map_of_mem inDs)
          rw [fires b inDs, timer₁, Function.update_of_ne ne]

end Keeps

end EventHub.Timer
