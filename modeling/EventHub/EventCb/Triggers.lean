import EventHub.EventCb.Wiring

/-! The bookkeeping of the triggers. A trigger is allocated as long as it is registered for an
event of a task, which is as long as slots are linked to it, or a batch refers to it. -/

namespace EventHub.EventCb
open Library Kernel Event

variable {T E S A : Type}

section Count

theorem connectCnt_add {c : BitVec 31} (fits : c.toNat + 1 < 2 ^ 31) :
    (c + 1).toNat = c.toNat + 1 := by
  rw [BitVec.toNat_add]
  exact Nat.mod_eq_of_lt fits

theorem connectCnt_sub {c : BitVec 31} (pos : 0 < c.toNat) : (c - 1).toNat = c.toNat - 1 := by
  have lt := c.isLt
  rw [BitVec.toNat_sub]
  change (2 ^ 31 - 1 + c.toNat) % 2 ^ 31 = _
  omega

theorem connectCnt_eq_zero {c : BitVec 31} : c = 0 ↔ c.toNat = 0 :=
  ⟨fun eq => by rw [eq]; rfl, fun eq => BitVec.eq_of_toNat_eq eq⟩

end Count

section Loop

theorem pinned_of_loop {L : SlotLayer T E S A} {t : T} {slots : List (EpollSlot E A)}
    (loop : L.loop t = some slots) : L.pinned t = slots.filterMap EpollSlot.userdata := by
  rw [SlotLayer.pinned, loop]
  rfl

theorem dispatching_of_loop {L : SlotLayer T E S A} {t : T} {slots : List (EpollSlot E A)}
    (loop : L.loop t = some slots) :
    L.dispatching t = slots.head?.bind EpollSlot.userdata := by
  rw [SlotLayer.dispatching, loop]
  rfl

theorem mem_userdata {slots : List (EpollSlot E A)} {a : A}
    (head : slots.head?.bind EpollSlot.userdata = some a) :
    a ∈ slots.filterMap EpollSlot.userdata := by
  obtain ⟨x, first, userdata⟩ := Option.bind_eq_some_iff.mp head
  exact List.mem_filterMap.mpr ⟨x, List.mem_of_mem_head? first, userdata⟩

theorem loop_of_dispatching {L : SlotLayer T E S A} {t : T} {a : A}
    (here : L.dispatching t = some a) :
    ∃ x rest, L.loop t = some (x :: rest) ∧ x.userdata = some a := by
  obtain ⟨slots, loop, head⟩ := Option.bind_eq_some_iff.mp here
  obtain ⟨x, first, userdata⟩ := Option.bind_eq_some_iff.mp head
  obtain ⟨rest, rfl⟩ := List.head?_eq_some_iff.mp first
  exact ⟨x, rest, loop, userdata⟩

variable [DecidableEq T]

theorem setLoop_pinned (L : SlotLayer T E S A) (t u : T) (o : Option (List (EpollSlot E A))) :
    (L.setLoop t o).pinned u =
      if u = t then (o.getD []).filterMap EpollSlot.userdata else L.pinned u := by
  simp only [SlotLayer.pinned, SlotLayer.setLoop, Function.update_apply]
  split <;> rfl

theorem setLoop_dispatching (L : SlotLayer T E S A) (t u : T)
    (o : Option (List (EpollSlot E A))) :
    (L.setLoop t o).dispatching u =
      if u = t then o.bind fun slots => slots.head?.bind EpollSlot.userdata
      else L.dispatching u := by
  simp only [SlotLayer.dispatching, SlotLayer.setLoop, Function.update_apply]
  split <;> rfl

end Loop

structure View (S : Type) where
  trigger : Option Trigger
  cb : List S
  used : List S
  news : Nat
  frees : Nat

def View.slots (v : View S) : List S := v.cb ++ v.used

def SlotLayer.view (L : SlotLayer T E S A) (a : A) : View S where
  trigger := L.trigger a
  cb := L.cbNodes.list (.cbHead a)
  used := L.cbNodes.list (.usedTmpList a)
  news := L.news a
  frees := L.frees a

/-- The trigger is registered for the event and the task in `o`, and referred to by the batch of
the task in `p`, which is `at_` it. -/
structure TriggerOk (v : View S) (at_ : T → Prop) (task : S → Option T) (o : Option (T × E))
    (p : Option T) : Prop where
  live : v.trigger.isSome ↔ o ≠ none ∨ p ≠ none
  forced : ∀ g, v.trigger = some g → (g.forcedRef = true ↔ p ≠ none)
  count : ∀ g, v.trigger = some g → g.connectCnt.toNat = v.slots.length
  owned : o ≠ none ↔ v.slots ≠ []
  used : v.used ≠ [] → ∃ t, p = some t ∧ at_ t
  task : ∀ t e, o = some (t, e) → ∀ s ∈ v.slots, task s = some t
  same : ∀ t e u, o = some (t, e) → p = some u → u = t
  freed : v.news = v.frees + if v.trigger.isSome then 1 else 0

structure Holds (taskEvent : T → E) (L : SlotLayer T E S A) (owner : A → Option (T × E))
    (pinner : A → Option T) : Prop where
  proper : L.cbNodes.Proper
  ok : ∀ a, TriggerOk (L.view a) (fun t => L.dispatching t = some a) L.slotTask (owner a) (pinner a)
  registered : ∀ t e a, L.receptor t e = some (some a) ↔ owner a = some (t, e)
  bare : ∀ t e, L.receptor t e = some none → e = taskEvent t
  other : ∀ a t e, owner a = some (t, e) → e ≠ taskEvent t
  pins : ∀ t a, a ∈ L.pinned t ↔ pinner a = some t
  pins_nodup : ∀ t, (L.pinned t).Nodup
  epoll : ∀ t e, L.receptor t e ≠ none → L.hasEpoll t = true
  wired : Wired L.events fun t e => L.receptor t e ≠ none

variable {L L' : SlotLayer T E S A} {a : A} {v : View S} {at_ : T → Prop} {task : S → Option T}
  {o : Option (T × E)} {p : Option T}

theorem TriggerOk.congr (h : TriggerOk v at_ task o p) {at' : T → Prop} {task' : S → Option T}
    (stays : ∀ t, at_ t → at' t) (same : ∀ s ∈ v.slots, task' s = task s) :
    TriggerOk v at' task' o p where
  live := h.live
  forced := h.forced
  count := h.count
  owned := h.owned
  used some := by
    obtain ⟨t, pinned, here⟩ := h.used some
    exact ⟨t, pinned, stays t here⟩
  task t e own s mem := (same s mem).trans (h.task t e own s mem)
  same := h.same
  freed := h.freed

variable {taskEvent : T → E} {owner : A → Option (T × E)} {pinner : A → Option T}
  {t u : T} {e f : E} {s : S}

theorem holds_init (taskEvent : T → E) :
    Holds taskEvent (SlotLayer.init : SlotLayer T E S A) (fun _ => none) fun _ => none where
  proper := Placing.proper_empty
  ok a := by constructor <;> simp [SlotLayer.init, SlotLayer.view, View.slots]
  registered t e a := by simp [SlotLayer.init]
  bare t e eq := by cases eq
  other a t e own := by cases own
  pins t a := by simp [SlotLayer.init, SlotLayer.pinned]
  pins_nodup t := .nil
  epoll t e some := (some rfl).elim
  wired := .init _

namespace Holds

theorem mem_slots (h : Holds taskEvent L owner pinner) :
    s ∈ L.slots a ↔
      L.cbNodes.home s = some (.cbHead a) ∨ L.cbNodes.home s = some (.usedTmpList a) := by
  rw [SlotLayer.slots, List.mem_append, h.proper.mem, h.proper.mem]

theorem slots_unique (h : Holds taskEvent L owner pinner) {b : A} (mem : s ∈ L.slots a)
    (mem' : s ∈ L.slots b) : a = b := by
  rw [h.mem_slots] at mem mem'
  rcases mem with home | home <;> rcases mem' with home' | home' <;>
    cases home.symm.trans home' <;> rfl

theorem slots_nodup (h : Holds taskEvent L owner pinner) (a : A) : (L.slots a).Nodup := by
  refine List.nodup_append.mpr ⟨h.proper.nodup _, h.proper.nodup _, fun s mem s' mem' eq => ?_⟩
  have home := h.proper.mem.mp mem
  rw [eq, h.proper.mem.mp mem'] at home
  cases home

theorem trigger_of_owner (h : Holds taskEvent L owner pinner) (own : owner a = some (t, e)) :
    ∃ g, L.trigger a = some g :=
  Option.isSome_iff_exists.mp ((h.ok a).live.mpr (.inl (by simp [own])))

theorem trigger_of_pinner (h : Holds taskEvent L owner pinner) (pinned : pinner a = some t) :
    ∃ g, L.trigger a = some g :=
  Option.isSome_iff_exists.mp ((h.ok a).live.mpr (.inr (by simp [pinned])))

/-- Nothing refers to an address where no trigger is. -/
theorem free_address (h : Holds taskEvent L owner pinner) (free : L.trigger a = none) :
    owner a = none ∧ pinner a = none ∧ L.slots a = [] := by
  have dead : ¬ (owner a ≠ none ∨ pinner a ≠ none) := by
    rw [← (h.ok a).live]
    simp [SlotLayer.view, free]
  rw [not_or, not_not, not_not] at dead
  refine ⟨dead.1, dead.2, ?_⟩
  by_contra some
  exact (h.ok a).owned.mpr some dead.1

theorem pinner_of_dispatching (h : Holds taskEvent L owner pinner)
    (at_ : L.dispatching t = some a) : pinner a = some t := by
  obtain ⟨x, rest, loop, userdata⟩ := loop_of_dispatching at_
  rw [← h.pins, pinned_of_loop loop]
  exact mem_userdata userdata

theorem events (h : Holds taskEvent L owner pinner) {events : Events E T T}
    (wired : Wired events fun t e => L.receptor t e ≠ none) :
    Holds taskEvent { L with events := events } owner pinner where
  proper := h.proper
  ok := h.ok
  registered := h.registered
  bare := h.bare
  other := h.other
  pins := h.pins
  pins_nodup := h.pins_nodup
  epoll := h.epoll
  wired := wired

variable [DecidableEq T] [DecidableEq E] [DecidableEq S] [DecidableEq A]

omit [DecidableEq E] [DecidableEq S] [DecidableEq A] in
theorem reloop (h : Holds taskEvent L owner pinner) {o : Option (List (EpollSlot E A))}
    (same : (o.getD []).filterMap EpollSlot.userdata = L.pinned t)
    (idle : ∀ a, pinner a = some t → L.cbNodes.list (.usedTmpList a) = []) :
    Holds taskEvent (L.setLoop t o) owner pinner := by
  have pinned : ∀ u, (L.setLoop t o).pinned u = L.pinned u := by
    intro u
    rw [setLoop_pinned]
    split
    · next eq => rw [eq, same]
    · rfl
  refine ⟨h.proper, fun a => ⟨(h.ok a).live, (h.ok a).forced, (h.ok a).count, (h.ok a).owned,
    fun some => ?_, (h.ok a).task, (h.ok a).same, (h.ok a).freed⟩, h.registered, h.bare, h.other,
    fun u b => ?_, fun u => ?_, h.epoll, h.wired⟩
  · obtain ⟨u, own, at_⟩ := (h.ok a).used some
    have ne : u ≠ t := fun eq => some (idle a (eq ▸ own))
    exact ⟨u, own, by rw [setLoop_dispatching, if_neg ne, at_]⟩
  · rw [pinned]
    exact h.pins u b
  · rw [pinned]
    exact h.pins_nodup u

end Holds

variable [DecidableEq T] [DecidableEq E] [DecidableEq S] [DecidableEq A]

omit [DecidableEq S] [DecidableEq A] in
theorem setReceptor_receptor (L : SlotLayer T E S A) (r : Option (Option A)) :
    (L.setReceptor t e r).receptor u f = if u = t ∧ f = e then r else L.receptor u f := by
  simp only [SlotLayer.setReceptor, Function.update_apply]
  by_cases at_t : u = t
  · by_cases at_e : f = e <;> simp [at_t, at_e]
  · simp [at_t]

omit [DecidableEq S] [DecidableEq A] in
theorem delEvent_wired {registered : T → E → Prop}
    (wired : Wired L.events registered) (same : ∀ t e, registered t e ↔ L.receptor t e ≠ none)
    (t : T) (e : E) :
    Wired (L.ehEpollDelEvent t e).events fun u f => (L.ehEpollDelEvent t e).receptor u f ≠ none := by
  rw [SlotLayer.ehEpollDelEvent]
  cases at_ : L.receptor t e with
  | none => exact wired.mono fun u f => (same u f).mp
  | some userdata =>
    refine (wired.del t e).mono fun u f => ?_
    rintro ⟨known, other⟩
    change (L.setReceptor t e none).receptor u f ≠ none
    rw [setReceptor_receptor, if_neg other]
    exact (same u f).mp known

omit [DecidableEq S] [DecidableEq A] in
theorem delEvent_receptor (L : SlotLayer T E S A) :
    (L.ehEpollDelEvent t e).receptor u f = if u = t ∧ f = e then none else L.receptor u f := by
  rw [SlotLayer.ehEpollDelEvent]
  cases at_ : L.receptor t e with
  | none =>
    dsimp only
    split
    · next both => rw [both.1, both.2, at_]
    · rfl
  | some userdata => exact setReceptor_receptor L none

section Frame
variable (L : SlotLayer T E S A) (t : T) (e : E)

omit [DecidableEq S] [DecidableEq A]

theorem delEvent_view (a : A) : (L.ehEpollDelEvent t e).view a = L.view a := by
  rw [SlotLayer.ehEpollDelEvent]
  cases L.receptor t e <;> rfl

@[simp] theorem delEvent_cbNodes : (L.ehEpollDelEvent t e).cbNodes = L.cbNodes := by
  rw [SlotLayer.ehEpollDelEvent]
  cases L.receptor t e <;> rfl

@[simp] theorem delEvent_slotTask : (L.ehEpollDelEvent t e).slotTask = L.slotTask := by
  rw [SlotLayer.ehEpollDelEvent]
  cases L.receptor t e <;> rfl

@[simp] theorem delEvent_loop : (L.ehEpollDelEvent t e).loop = L.loop := by
  rw [SlotLayer.ehEpollDelEvent]
  cases L.receptor t e <;> rfl

@[simp] theorem delEvent_hasEpoll : (L.ehEpollDelEvent t e).hasEpoll = L.hasEpoll := by
  rw [SlotLayer.ehEpollDelEvent]
  cases L.receptor t e <;> rfl

end Frame

end EventHub.EventCb
