import EventHub.EventCb.Runs

/-! The end of a task. Its epoll is deleted, with the triggers of the events that are still
registered in it. -/

namespace EventHub.EventCb
open Library Kernel Event

variable {T E S A : Type}

namespace SlotLayer
variable [DecidableEq T] [DecidableEq E] [DecidableEq S] [DecidableEq A]

/-- `epoll_userdata_free` of the receptor for an event. -/
def epollUserdataFree (L : SlotLayer T E S A) (t : T) (e : E) : Option (SlotLayer T E S A) :=
  match (L.receptor t e).join with
  | none => pure L
  | some trigger => do
    let _ ← L.trigger trigger
    { L with cbNodes := L.cbNodes.delAll (.cbHead trigger) }.ehFree trigger

/-- A round of the loop of `eh_epoll_del_advanced`. -/
def delReceptor (t : T) (L : SlotLayer T E S A) (e : E) : Option (SlotLayer T E S A) := do
  let L ← L.epollUserdataFree t e
  pure { L.setReceptor t e none with events := L.events.removeReceptor e (.epoll t e) }

/-- `es` are the events in the order in which the tree is walked. The list of pending receptors
goes with the epoll. -/
def ehEpollDelAdvanced (L : SlotLayer T E S A) (t : T) (es : List E) :
    Option (SlotLayer T E S A) := do
  let L ← es.foldlM (delReceptor t) L
  pure { L with
    events := L.events.setEpoll t ⟨[], none⟩
    hasEpoll := Function.update L.hasEpoll t false }

variable (taskEvent : T → E)

def taskSystemDataDestructFunction (L : SlotLayer T E S A) (t : T) (es : List E) :
    Option (SlotLayer T E S A) :=
  (L.ehEpollDelEvent t (taskEvent t)).ehEpollDelAdvanced t es

def taskDestroy (L : SlotLayer T E S A) (t : T) (es : List E) : Option (SlotLayer T E S A) := do
  let L ← if L.hasEpoll t then L.taskSystemDataDestructFunction taskEvent t es else pure L
  pure { L with events := L.events.ehEventClean (taskEvent t) }

/-- These are the events in the tree when that of the task itself has been taken out. -/
def Walks (L : SlotLayer T E S A) (t : T) (es : List E) : Prop :=
  es.Nodup ∧ ∀ e, e ∈ es ↔ e ≠ taskEvent t ∧ L.receptor t e ≠ none

end SlotLayer

/-- Of the slots of a task, those in `used_tmp_list` stay where they are. -/
def View.destroyed (v : View S) : View S :=
  { v with trigger := none, cb := [], frees := v.frees + 1 }

/-- The loop of `eh_epoll_del_advanced` has dealt with these events. -/
structure Destructing [DecidableEq T] (L : SlotLayer T E S A) (t : T) (done : List E)
    (L' : SlotLayer T E S A) : Prop where
  receptor : ∀ {u f}, ¬ (u = t ∧ f ∈ done) → L'.receptor u f = L.receptor u f
  deleted : ∀ e ∈ done, L'.receptor t e = none
  gone : ∀ {a e}, e ∈ done → L.receptor t e = some (some a) → L'.view a = (L.view a).destroyed
  kept : ∀ a, (∀ e ∈ done, L.receptor t e ≠ some (some a)) → L'.view a = L.view a
  proper : L'.cbNodes.Proper
  slotTask : L'.slotTask = L.slotTask
  loop : L'.loop = L.loop
  hasEpoll : L'.hasEpoll = L.hasEpoll
  wired : Wired (L'.events.setEpoll t ⟨[], none⟩) fun u f => L'.receptor u f ≠ none

variable {L L' : SlotLayer T E S A} {taskEvent : T → E} {owner : A → Option (T × E)}
  {pinner : A → Option T} {a : A} {t u : T} {e f : E} {s : S} {done es : List E}
  [DecidableEq T] [DecidableEq E] [DecidableEq S] [DecidableEq A]

theorem Wired.remove {ev : Events E T T} {registered : T → E → Prop}
    (h : Wired (ev.setEpoll t ⟨[], none⟩) registered) (e : E) :
    Wired ((ev.removeReceptor e (.epoll t e)).setEpoll t ⟨[], none⟩)
      fun u f => registered u f ∧ ¬ (u = t ∧ f = e) := by
  have gone := h.del t e
  have same : ((ev.setEpoll t ⟨[], none⟩).removeReceptor e (.epoll t e)).setEpoll t
      { (ev.setEpoll t ⟨[], none⟩).epoll t with
        pending := ((ev.setEpoll t ⟨[], none⟩).epoll t).pending.erase e } =
      (ev.removeReceptor e (.epoll t e)).setEpoll t ⟨[], none⟩ := by
    simp [Events.setEpoll, Events.removeReceptor]
  rwa [same] at gone

omit [DecidableEq T] [DecidableEq E] in
theorem epollUserdataFree_spec (proper : L.cbNodes.Proper)
    (allocated : ∀ a, L.receptor t e = some (some a) → L.trigger a ≠ none) :
    ∃ L', L.epollUserdataFree t e = some L' ∧
      (∀ a, L'.view a =
        if L.receptor t e = some (some a) then (L.view a).destroyed else L.view a) ∧
      L'.cbNodes.Proper ∧ L'.receptor = L.receptor ∧ L'.slotTask = L.slotTask ∧
      L'.loop = L.loop ∧ L'.hasEpoll = L.hasEpoll ∧ L'.events = L.events := by
  rw [SlotLayer.epollUserdataFree]
  match known : L.receptor t e with
  | none | some none => exact ⟨L, rfl, fun a => by simp, proper, rfl, rfl, rfl, rfl, rfl⟩
  | some (some a) =>
    obtain ⟨g, trigger⟩ := Option.ne_none_iff_exists'.mp (allocated a known)
    obtain ⟨L₀, eq⟩ : ∃ L₀ : SlotLayer T E S A,
      L₀ = { L with cbNodes := L.cbNodes.delAll (.cbHead a) } := ⟨_, rfl⟩
    have at_a : L₀.trigger a = some g := by rw [eq]; exact trigger
    refine ⟨L₀.freed a, ?_, fun b => ?_, by rw [eq]; exact proper.delAll _, by rw [eq]; rfl,
      by rw [eq]; rfl, by rw [eq]; rfl, by rw [eq]; rfl, by rw [eq]; rfl⟩
    · simp only [Option.join_some, trigger, Option.bind_eq_bind, Option.bind_some, ← eq,
        ehFree_eq at_a]
    · rw [freed_view]
      by_cases at_b : b = a
      · subst at_b
        simp [eq, SlotLayer.view, View.destroyed, proper.delAll_eq]
      · have other : ¬ (some (some a) = some (some b)) := by simpa using Ne.symm at_b
        rw [if_neg at_b, if_neg other, eq]
        simp [SlotLayer.view, proper.delAll_eq, at_b]

omit [DecidableEq E] [DecidableEq S] [DecidableEq A] in
theorem Holds.destructing (h : Holds taskEvent L owner pinner) (t : T) : Destructing L t [] L where
  receptor _ := rfl
  deleted _ mem := (List.not_mem_nil mem).elim
  gone mem := (List.not_mem_nil mem).elim
  kept _ _ := rfl
  proper := h.proper
  slotTask := rfl
  loop := rfl
  hasEpoll := rfl
  wired := h.wired.reset t

theorem Destructing.step (d : Destructing L t done L') (h : Holds taskEvent L owner pinner)
    (out : e ∉ done) :
    ∃ L'', L'.delReceptor t e = some L'' ∧ Destructing L t (done ++ [e]) L'' := by
  have known : L'.receptor t e = L.receptor t e := d.receptor (by simp [out])
  have unique : ∀ {a f}, L.receptor t e = some (some a) → L.receptor t f = some (some a) →
      f = e := by
    intro a f at_e at_f
    have own := (h.registered t e a).mp at_e
    rw [(h.registered t f a).mp at_f] at own
    cases own
    rfl
  have same : ∀ {a}, L.receptor t e = some (some a) → L'.view a = L.view a := fun at_e =>
    d.kept _ fun f mem at_f => out (unique at_e at_f ▸ mem)
  obtain ⟨L₁, run, view, proper, receptor, slotTask, loop, hasEpoll, events⟩ :=
    epollUserdataFree_spec (t := t) (e := e) d.proper fun a at_e => by
      rw [known] at at_e
      obtain ⟨g, trigger⟩ := h.trigger_of_owner ((h.registered t e a).mp at_e)
      rw [show L'.trigger a = L.trigger a from congrArg View.trigger (same at_e), trigger]
      exact Option.some_ne_none g
  rw [known] at view
  refine ⟨{ L₁.setReceptor t e none with events := L₁.events.removeReceptor e (.epoll t e) },
    by rw [SlotLayer.delReceptor, run]; rfl, ?_, fun f mem => ?_, ?_, fun a none => ?_,
    proper, slotTask.trans d.slotTask, loop.trans d.loop, hasEpoll.trans d.hasEpoll, ?_⟩
  · intro u f other
    change (L₁.setReceptor t e none).receptor u f = _
    rw [setReceptor_receptor, receptor, if_neg fun both => other (by simp [both])]
    exact d.receptor fun both => other (by simp [both])
  · change (L₁.setReceptor t e none).receptor t f = _
    rw [setReceptor_receptor, receptor]
    split
    · rfl
    · next other => exact d.deleted f (by simpa [show f ≠ e by simpa using other] using mem)
  · intro a f mem at_f
    refine (view a).trans ?_
    rcases List.mem_append.mp mem with before | here
    · rw [if_neg fun at_e => out (unique at_e at_f ▸ before)]
      exact d.gone before at_f
    · rw [List.mem_singleton.mp here] at at_f
      rw [if_pos at_f, same at_f]
  · refine (view a).trans ?_
    rw [if_neg (none e (by simp))]
    exact d.kept a fun f mem => none f (by simp [mem])
  · change Wired ((L₁.events.removeReceptor e (.epoll t e)).setEpoll t ⟨[], .none⟩) _
    rw [events]
    refine (d.wired.remove e).mono fun u f both => ?_
    change (L₁.setReceptor t e .none).receptor u f ≠ .none
    rw [setReceptor_receptor, receptor, if_neg both.2]
    exact both.1

theorem Holds.destruct (h : Holds taskEvent L owner pinner) (nodup : (done ++ es).Nodup)
    (d : Destructing L t done L') :
    ∃ L'', es.foldlM (SlotLayer.delReceptor t) L' = some L'' ∧
      Destructing L t (done ++ es) L'' := by
  induction es generalizing done L' with
  | nil => exact ⟨L', rfl, by rwa [List.append_nil]⟩
  | cons e es ih =>
    have out : e ∉ done := fun mem =>
      (List.nodup_append.mp nodup).2.2 e mem e (List.mem_cons_self ..) rfl
    obtain ⟨L₁, step, d₁⟩ := d.step h out
    rw [List.append_cons] at nodup ⊢
    obtain ⟨L'', rest, d''⟩ := ih nodup d₁
    exact ⟨L'', by rw [List.foldlM_cons, step]; exact rest, d''⟩

structure Destroyed (L : SlotLayer T E S A) (t : T) (L' : SlotLayer T E S A) : Prop where
  receptor : ∀ u e, L'.receptor u e = if u = t then none else L.receptor u e
  hasEpoll : L'.hasEpoll = Function.update L.hasEpoll t false
  gone : ∀ {a e}, L.receptor t e = some (some a) → L'.view a = (L.view a).destroyed
  kept : ∀ a, (∀ e, L.receptor t e ≠ some (some a)) → L'.view a = L.view a
  proper : L'.cbNodes.Proper
  slotTask : L'.slotTask = L.slotTask
  loop : L'.loop = L.loop
  wired : Wired L'.events fun u e => L'.receptor u e ≠ none

omit [DecidableEq S] [DecidableEq A] in
theorem Holds.delOwn (h : Holds taskEvent L owner pinner) (t : T) :
    Holds taskEvent (L.ehEpollDelEvent t (taskEvent t)) owner pinner := by
  match known : L.receptor t (taskEvent t) with
  | none => rwa [SlotLayer.ehEpollDelEvent, known]
  | some none => exact h.delBare known
  | some (some a) => exact absurd rfl (h.other a t _ ((h.registered t _ a).mp known))

omit [DecidableEq S] [DecidableEq A] in
theorem Destroyed.clean (d : Destroyed L t L') (e : E) :
    Destroyed L t { L' with events := L'.events.ehEventClean e } :=
  ⟨d.receptor, d.hasEpoll, d.gone, d.kept, d.proper, d.slotTask, d.loop, d.wired.clean e⟩

theorem Holds.taskSystemDataDestructFunction (h : Holds taskEvent L owner pinner)
    (walks : L.Walks taskEvent t es) :
    ∃ L', L.taskSystemDataDestructFunction taskEvent t es = some L' ∧ Destroyed L t L' := by
  obtain ⟨L₁, run, d⟩ := (h.delOwn t).destruct (by simpa using walks.1)
    ((h.delOwn t).destructing t)
  rw [List.nil_append] at d
  have before : ∀ e, e ≠ taskEvent t →
      (L.ehEpollDelEvent t (taskEvent t)).receptor t e = L.receptor t e := fun e ne => by
    rw [delEvent_receptor, if_neg fun both => ne both.2]
  refine ⟨{ L₁ with
      events := L₁.events.setEpoll t ⟨[], none⟩
      hasEpoll := Function.update L₁.hasEpoll t false },
    by rw [SlotLayer.taskSystemDataDestructFunction, SlotLayer.ehEpollDelAdvanced, run]; rfl,
    fun u e => ?_, ?_, fun {a e} known => ?_, fun a none => ?_, d.proper,
    d.slotTask.trans (delEvent_slotTask ..), d.loop.trans (delEvent_loop ..), d.wired⟩
  · change L₁.receptor u e = _
    by_cases at_t : u = t
    · subst at_t
      rw [if_pos rfl]
      by_cases mem : e ∈ es
      · exact d.deleted e mem
      · rw [d.receptor fun both => mem both.2, delEvent_receptor]
        split
        · rfl
        · next other =>
          by_contra known
          exact mem ((walks.2 e).mpr ⟨fun eq => other ⟨rfl, eq⟩, known⟩)
    · rw [if_neg at_t, d.receptor fun both => at_t both.1, delEvent_receptor,
        if_neg fun both => at_t both.1]
  · change Function.update L₁.hasEpoll t false = _
    rw [d.hasEpoll, delEvent_hasEpoll]
  · have ne := h.other a t e ((h.registered t e a).mp known)
    have mem : e ∈ es := (walks.2 e).mpr ⟨ne, by simp [known]⟩
    exact (d.gone mem ((before e ne).trans known)).trans (by rw [delEvent_view])
  · refine (d.kept a fun e mem known => ?_).trans (delEvent_view ..)
    exact none e ((before e ((walks.2 e).mp mem).1).symm.trans known)

omit [DecidableEq E] [DecidableEq S] [DecidableEq A] in
theorem Holds.destroyed_self (h : Holds taskEvent L owner pinner) (noEpoll : L.hasEpoll t = false) :
    Destroyed L t L := by
  have bare : ∀ e, L.receptor t e = none := fun e => by
    by_contra known
    rw [h.epoll t e known] at noEpoll
    cases noEpoll
  refine ⟨fun u e => ?_, ?_, fun {a e} known => ?_, fun _ _ => rfl, h.proper, rfl, rfl, h.wired⟩
  · split
    · next at_t => rw [at_t, bare e]
    · rfl
  · rw [← noEpoll, Function.update_eq_self]
  · rw [bare] at known
    cases known

theorem Holds.destroy (h : Holds taskEvent L owner pinner) (walks : L.Walks taskEvent t es) :
    ∃ L', L.taskDestroy taskEvent t es = some L' ∧ Destroyed L t L' := by
  rw [SlotLayer.taskDestroy]
  split
  · obtain ⟨L₁, run, d⟩ := h.taskSystemDataDestructFunction walks
    exact ⟨_, by rw [run]; rfl, d.clean (taskEvent t)⟩
  · next noEpoll =>
    exact ⟨_, rfl, (h.destroyed_self (by simpa using noEpoll)).clean (taskEvent t)⟩

section After

omit [DecidableEq E] [DecidableEq S] [DecidableEq A]

theorem Destroyed.home_none (d : Destroyed L t L') (h : Holds taskEvent L owner pinner)
    (known : L.receptor t e = some (some a)) (mem : s ∈ L.cbNodes.list (.cbHead a)) :
    L'.cbNodes.home s = none := by
  have home := h.proper.mem.mp mem
  have cases_view : ∀ b, L'.view b = L.view b ∧ b ≠ a ∨ L'.view b = (L.view b).destroyed := by
    intro b
    by_cases own : ∃ f, L.receptor t f = some (some b)
    · exact .inr (d.gone own.choose_spec)
    · refine .inl ⟨d.kept b fun f known => own ⟨f, known⟩, fun eq => own ⟨e, eq ▸ known⟩⟩
  by_contra linked
  obtain ⟨i, home'⟩ := Option.ne_none_iff_exists'.mp linked
  have mem' := d.proper.mem.mpr home'
  cases i with
  | cbHead b =>
    rcases cases_view b with ⟨view, ne⟩ | view
    · rw [show L'.cbNodes.list (.cbHead b) = _ from congrArg View.cb view] at mem'
      have home'' := h.proper.mem.mp mem'
      rw [home] at home''
      cases home''
      exact ne rfl
    · rw [show L'.cbNodes.list (.cbHead b) = _ from congrArg View.cb view] at mem'
      cases mem'
  | usedTmpList b =>
    have used : L'.cbNodes.list (.usedTmpList b) = L.cbNodes.list (.usedTmpList b) := by
      rcases cases_view b with ⟨view, -⟩ | view
      · exact congrArg View.used view
      · exact congrArg View.used view
    rw [used] at mem'
    have home'' := h.proper.mem.mp mem'
    rw [home] at home''
    cases home''

theorem Destroyed.holds (d : Destroyed L t L') (h : Holds taskEvent L owner pinner)
    (out : L.loop t = none) :
    Holds taskEvent L' (fun a => (owner a).filter (·.1 ≠ t)) pinner := by
  have pinned : L'.pinned = L.pinned := by
    funext u
    rw [SlotLayer.pinned, SlotLayer.pinned, d.loop]
  have dispatching : L'.dispatching = L.dispatching := by
    funext u
    rw [SlotLayer.dispatching, SlotLayer.dispatching, d.loop]
  have free : ∀ a, pinner a ≠ some t := fun a own => by
    have mem := (h.pins t a).mpr own
    rw [SlotLayer.pinned, out] at mem
    cases mem
  refine ⟨d.proper, fun a => ?_, fun u e a => ?_, fun u e bare => ?_, fun a u e own => ?_,
    fun u a => ?_, fun u => ?_, fun u e known => ?_, d.wired⟩
  · rw [dispatching, d.slotTask]
    by_cases own : ∃ e, owner a = some (t, e)
    · obtain ⟨e, own⟩ := own
      have ok := h.ok a
      rw [own] at ok
      have none : pinner a = none := by
        by_contra some
        obtain ⟨u, pinned⟩ := Option.ne_none_iff_exists'.mp some
        exact free a (ok.same t e u rfl pinned ▸ pinned)
      have used : (L.view a).used = [] := by
        by_contra some
        obtain ⟨u, pinned, -⟩ := ok.used some
        rw [none] at pinned
        cases pinned
      obtain ⟨g, trigger⟩ := h.trigger_of_owner own
      have forced : g.forcedRef = false := by
        simpa [none] using (h.ok a).forced g trigger
      rw [d.gone ((h.registered t e a).mpr own), own, Option.filter_some, if_neg (by simp), none]
      rw [none] at ok
      refine (ok.dropped trigger).of_view ?_
      simp [View.destroyed, forced, used]
    · have kept : L'.view a = L.view a := d.kept a fun e known =>
        own ⟨e, (h.registered t e a).mp known⟩
      have same : (owner a).filter (·.1 ≠ t) = owner a := by
        cases eq : owner a with
        | none => rfl
        | some at_a =>
          refine (Option.filter_some ..).trans (if_pos ?_)
          simpa using fun at_t : at_a.1 = t => own ⟨at_a.2, at_t ▸ eq⟩
      rw [kept, same]
      exact h.ok a
  · rw [d.receptor, Option.filter_eq_some_iff, ← h.registered]
    split
    · next at_t => simp [at_t]
    · next at_t => simp [at_t]
  · rw [d.receptor] at bare
    split at bare
    · cases bare
    · exact h.bare u e bare
  · exact h.other a u e (Option.filter_eq_some_iff.mp own).1
  · rw [pinned]
    exact h.pins u a
  · rw [pinned]
    exact h.pins_nodup u
  · rw [d.receptor] at known
    rw [d.hasEpoll]
    split at known
    · exact absurd rfl known
    · next at_t => rw [Function.update_of_ne at_t, h.epoll u e known]

end After

/-! Only the end of a task takes its epoll away. -/

section Epolls
variable {l : SlotLabel T E S A}

end Epolls

/-! Runs with ends of tasks. -/

inductive LifeLabel (T E S A : Type) where
  | layer (l : SlotLabel T E S A)
  | destroy (t : T) (es : List E)

def SlotLayer.LifeStep (taskEvent : T → E) (L : SlotLayer T E S A) :
    LifeLabel T E S A → SlotLayer T E S A → Prop
  | .layer l, L' => L.SoundStep taskEvent l L'
  | .destroy t es, L' =>
    L.loop t = none ∧ L.Walks taskEvent t es ∧ L.taskDestroy taskEvent t es = some L'

section Runs
variable {ls : List (LifeLabel T E S A)}

theorem LifeStep.holds (h : Holds taskEvent L owner pinner) {l : LifeLabel T E S A}
    (step : L.LifeStep taskEvent l L') : ∃ owner pinner, Holds taskEvent L' owner pinner := by
  cases l with
  | layer l => exact (SoundStep.effect h step).holds
  | destroy t es =>
    obtain ⟨out, walks, made⟩ := step
    obtain ⟨L₁, made', d⟩ := h.destroy walks
    cases made.symm.trans made'
    exact ⟨_, _, d.holds h out⟩

theorem LifeStep.run (run : Run (SlotLayer.LifeStep taskEvent) SlotLayer.init ls L) :
    ∃ owner pinner, Holds taskEvent L owner pinner := by
  refine run.invariant (I := fun L => ∃ owner pinner, Holds taskEvent L owner pinner) ?_
    ⟨_, _, holds_init taskEvent⟩
  rintro L l L' ⟨owner, pinner, holds⟩ step
  exact LifeStep.holds holds step

end Runs

end EventHub.EventCb
