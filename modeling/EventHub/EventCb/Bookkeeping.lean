import EventHub.EventCb.Steps
import EventHub.Library.Transition

/-! The layer over runs. Slot functions are what stands between two steps of a dispatch: they may
connect and disconnect any slots, and other tasks may come in between. -/

namespace EventHub.EventCb
open Library Kernel Event

variable {T E S A : Type}

namespace SlotLayer

/-- The slot is linked to the trigger for the event in the epoll of the task. -/
def Connected (L : SlotLayer T E S A) (s : S) (t : T) (e : E) : Prop :=
  ∃ a, L.receptor t e = some (some a) ∧ s ∈ L.slots a

/-- `connect_cnt` holds one slot more. -/
def Fits (L : SlotLayer T E S A) (t : T) (e : E) : Prop :=
  ∀ a, L.receptor t e = some (some a) → (L.slots a).length + 1 < 2 ^ 31

/-- `eh_event_cb_connect` comes to the allocation of a trigger, and it fails. -/
def LacksTrigger (taskEvent : T → E) (L : SlotLayer T E S A) (e : E) (s : S) (t : T)
    (mem : Mallocs A) : Prop :=
  L.cbNodes.home s = none ∧ e ≠ taskEvent t ∧
    (L.hasEpoll t = true ∨ mem.epoll = true ∧ mem.ownReceptor = true) ∧
    L.receptor t e = none ∧ mem.receptor = true ∧ mem.trigger = none

end SlotLayer

variable {L L' : SlotLayer T E S A} {taskEvent : T → E} {owner : A → Option (T × E)}
  {pinner : A → Option T} {a : A} {t u : T} {e f : E} {s : S}
  [DecidableEq T] [DecidableEq E]

theorem getEpoll_cases (taskEvent : T → E) (L : SlotLayer T E S A) (t : T) (mem : Mallocs A) :
    (L.hasEpoll t = true ∧ L.taskGetEpollTryNew taskEvent t mem = (ehRetOk, L)) ∨
    (L.hasEpoll t = false ∧ ¬ (mem.epoll = true ∧ mem.ownReceptor = true) ∧
      L.taskGetEpollTryNew taskEvent t mem = (ehRetMallocError, L)) ∨
    (L.hasEpoll t = false ∧ mem.epoll = true ∧ mem.ownReceptor = true ∧
      L.taskGetEpollTryNew taskEvent t mem = (ehRetOk, { L with
        receptor := Function.update L.receptor t
          (Function.update (fun _ => none) (taskEvent t) (some none))
        events := ((L.events.setEpoll t ⟨[], none⟩).setFlags (.epoll t (taskEvent t))
          .clear).addReceptor (taskEvent t) (.epoll t (taskEvent t))
        hasEpoll := Function.update L.hasEpoll t true })) := by
  rw [SlotLayer.taskGetEpollTryNew]
  cases epoll : L.hasEpoll t with
  | true => exact .inl ⟨rfl, if_pos rfl⟩
  | false =>
    right
    rw [if_neg (by decide)]
    by_cases first : mem.epoll = false
    · rw [if_pos first]
      exact .inl ⟨rfl, by simp [first], rfl⟩
    · by_cases second : mem.ownReceptor = false
      · rw [if_neg first, if_pos second]
        exact .inl ⟨rfl, by simp [second], rfl⟩
      · rw [if_neg first, if_neg second]
        refine .inr ⟨rfl, Bool.not_eq_false _ ▸ first, Bool.not_eq_false _ ▸ second, ?_⟩
        simp [SlotLayer.newReceptor, SlotLayer.setReceptor]

theorem getEpoll_returns (taskEvent : T → E) (L : SlotLayer T E S A) (t : T) (mem : Mallocs A) :
    (L.hasEpoll t = false ∧ ¬ (mem.epoll = true ∧ mem.ownReceptor = true) ∧
      L.taskGetEpollTryNew taskEvent t mem = (ehRetMallocError, L)) ∨
    ∃ L₁, L.taskGetEpollTryNew taskEvent t mem = (ehRetOk, L₁) ∧ L₁.hasEpoll t = true ∧
      (L.hasEpoll t = true ∨ mem.epoll = true ∧ mem.ownReceptor = true) := by
  rcases getEpoll_cases taskEvent L t mem with ⟨has, eq⟩ | ⟨out, few, eq⟩ | ⟨-, first, second, eq⟩
  · exact .inr ⟨_, eq, has, .inl has⟩
  · exact .inl ⟨out, few, eq⟩
  · exact .inr ⟨_, eq, Function.update_self .., .inr ⟨first, second⟩⟩

theorem Holds.getEpoll (h : Holds taskEvent L owner pinner) (t : T) (mem : Mallocs A) :
    Holds taskEvent (L.taskGetEpollTryNew taskEvent t mem).2 owner pinner := by
  rcases getEpoll_cases taskEvent L t mem with ⟨-, eq⟩ | ⟨-, -, eq⟩ | ⟨none_, -, -, eq⟩
  · rwa [eq]
  · rwa [eq]
  · rw [eq]
    have unknown : ∀ f, L.receptor t f = none := by
      intro f
      by_contra known
      rw [h.epoll t f known] at none_
      cases none_
    have receptor : ∀ u f, Function.update L.receptor t
        (Function.update (fun _ => none) (taskEvent t) (some none)) u f =
          if u = t ∧ f = taskEvent t then some none else L.receptor u f := by
      intro u f
      by_cases at_t : u = t
      · subst at_t
        by_cases own : f = taskEvent u <;> simp [own, unknown]
      · simp [at_t]
    refine ⟨h.proper, h.ok, fun u f b => ?_, fun u f bare => ?_, h.other, h.pins, h.pins_nodup,
      fun u f known => ?_, ?_⟩
    · change Function.update L.receptor t _ u f = _ ↔ _
      rw [receptor]
      split
      · next here =>
        have not_own : owner b ≠ some (u, f) := fun own =>
          h.other b u f own (here.1 ▸ here.2)
        simp [not_own]
      · exact h.registered u f b
    · change Function.update L.receptor t _ u f = _ at bare
      rw [receptor] at bare
      split at bare
      · next here => rw [here.1, here.2]
      · exact h.bare u f bare
    · change Function.update L.receptor t _ u f ≠ none at known
      change Function.update L.hasEpoll t true u = true
      rw [receptor] at known
      by_cases at_t : u = t
      · rw [at_t, Function.update_self]
      · rw [Function.update_of_ne at_t]
        rw [if_neg fun here => at_t here.1] at known
        exact h.epoll u f known
    · refine (h.wired.reset t).add (not_not.mpr (unknown _)) ?_ fun u f known => ?_
      · change Function.update L.receptor t _ t (taskEvent t) ≠ none
        rw [receptor, if_pos ⟨rfl, rfl⟩]
        exact Option.some_ne_none _
      · change Function.update L.receptor t _ u f ≠ none
        rw [receptor]
        split
        · exact Option.some_ne_none _
        · exact known

theorem getEpoll_frame (taskEvent : T → E) (L : SlotLayer T E S A) (t : T) (mem : Mallocs A) :
    (L.taskGetEpollTryNew taskEvent t mem).2.cbNodes = L.cbNodes ∧
      (L.taskGetEpollTryNew taskEvent t mem).2.trigger = L.trigger ∧
      (L.taskGetEpollTryNew taskEvent t mem).2.loop = L.loop ∧
      (L.taskGetEpollTryNew taskEvent t mem).2.slotTask = L.slotTask := by
  rcases getEpoll_cases taskEvent L t mem with ⟨-, eq⟩ | ⟨-, -, eq⟩ | ⟨-, -, -, eq⟩ <;>
    rw [eq] <;> exact ⟨rfl, rfl, rfl, rfl⟩

theorem Holds.getEpoll_receptor (h : Holds taskEvent L owner pinner) (t : T) (mem : Mallocs A)
    (other : f ≠ taskEvent u) :
    (L.taskGetEpollTryNew taskEvent t mem).2.receptor u f = L.receptor u f := by
  rcases getEpoll_cases taskEvent L t mem with ⟨-, eq⟩ | ⟨-, -, eq⟩ | ⟨none_, -, -, eq⟩
  · rw [eq]
  · rw [eq]
  · rw [eq]
    dsimp only
    by_cases at_t : u = t
    · subst at_t
      rw [Function.update_self, Function.update_of_ne other]
      by_contra known
      rw [h.epoll u f (Ne.symm known)] at none_
      cases none_
    · rw [Function.update_of_ne at_t]

variable [DecidableEq S] [DecidableEq A]

omit [DecidableEq T] [DecidableEq E] in
theorem triggerConnect_frame (run : L.triggerConnect a s = some L') :
    L'.cbNodes = L.cbNodes.add s (.cbHead a) ∧ L'.loop = L.loop := by
  rw [SlotLayer.triggerConnect] at run
  obtain ⟨g, -, eq⟩ := Option.bind_eq_some_iff.mp run
  cases eq
  exact ⟨rfl, rfl⟩

omit [DecidableEq T] [DecidableEq E] in
theorem triggerDisconnect_frame {left : BitVec 31}
    (run : L.triggerDisconnect a s = some (left, L')) :
    L'.cbNodes = L.cbNodes.delInit s ∧ L'.loop = L.loop ∧ L'.receptor = L.receptor := by
  rw [SlotLayer.triggerDisconnect] at run
  obtain ⟨g, -, eq⟩ := Option.bind_eq_some_iff.mp run
  dsimp only at eq
  split at eq
  · obtain ⟨L₁, freed, eq⟩ := Option.bind_eq_some_iff.mp eq
    obtain ⟨-, -, made⟩ := Option.bind_eq_some_iff.mp freed
    cases eq
    cases made
    exact ⟨rfl, rfl, rfl⟩
  · cases eq
    exact ⟨rfl, rfl, rfl⟩

/-- A call that fails changes no trigger and no slot; one that succeeds links the slot to the
trigger for the event. -/
theorem Holds.connect (h : Holds taskEvent L owner pinner) {mem : Mallocs A}
    (free : ∀ a, mem.trigger = some a → L.trigger a = none)
    (lacks : ¬ L.LacksTrigger taskEvent e s t mem) (fits : L.Fits t e) :
    ∃ ret L', L.ehEventCbConnect taskEvent e s t mem = some (ret, L') ∧
      (ret < 0 ∧ Holds taskEvent L' owner pinner ∧
        (L' = L ∨ L' = (L.taskGetEpollTryNew taskEvent t mem).2) ∨
      ret = ehRetOk ∧ ∃ a owner', Holds taskEvent L' owner' pinner ∧ owner' a = some (t, e) ∧
        L'.cbNodes = L.cbNodes.add s (.cbHead a) ∧ L.cbNodes.home s = none ∧
        L'.loop = L.loop ∧ (owner' = owner ∨
          L.trigger a = none ∧ owner' = Function.update owner a (some (t, e)))) := by
  rw [SlotLayer.ehEventCbConnect]
  by_cases home : L.cbNodes.home s = none
  · rw [if_neg (by simp [home])]
    by_cases own : e ≠ taskEvent t
    · rw [if_neg own]
      have kept := h.getEpoll t mem
      have receptor := h.getEpoll_receptor t mem own
      obtain ⟨cbNodes, trigger, loop, -⟩ := getEpoll_frame taskEvent L t mem
      obtain ⟨-, -, got⟩ | ⟨L₁, got, epoll, reached⟩ := getEpoll_returns taskEvent L t mem
      · rw [got]
        exact ⟨_, _, rfl, .inl ⟨by decide, h, .inl rfl⟩⟩
      rw [got] at kept receptor cbNodes trigger loop ⊢
      dsimp only at kept receptor cbNodes trigger loop ⊢
      have home' : L₁.cbNodes.home s = none := by rw [cbNodes, home]
      rw [if_neg (by decide), SlotLayer.ehEpollAddEventAdvanced]
      cases known : L₁.receptor t e with
      | some userdata =>
        dsimp only
        rw [if_neg (by decide), if_pos rfl, known]
        cases userdata with
        | none => exact absurd (kept.bare t e known) own
        | some a =>
          have owns := (kept.registered t e a).mp known
          have room : (L₁.slots a).length + 1 < 2 ^ 31 := by
            rw [SlotLayer.slots, cbNodes]
            exact fits a (receptor ▸ known)
          obtain ⟨L₂, run, holds⟩ := kept.attach owns home' room
          obtain ⟨nodes, same⟩ := triggerConnect_frame run
          refine ⟨ehRetOk, { L₂ with slotTask := Function.update L₂.slotTask s (some t) }, ?_,
            .inr ⟨rfl, a, owner, holds, owns, ?_, home, ?_, .inl rfl⟩⟩
          · simp [run]
          · rw [nodes, cbNodes]
          · rw [same, loop]
      | none =>
        dsimp only
        have unknown : L.receptor t e = none := receptor ▸ known
        by_cases memory : mem.receptor = true
        · rw [if_pos memory]
          dsimp only
          rw [if_neg (by decide), if_neg (by decide)]
          cases given : mem.trigger with
          | none => exact absurd ⟨home, own, reached, unknown, memory, given⟩ lacks
          | some a =>
            have dead := free a given
            have empty := (h.free_address dead).2.2
            rw [SlotLayer.slots, List.append_eq_nil_iff] at empty
            obtain ⟨L₂, run, holds⟩ := kept.attachNew (by rw [trigger, dead]) known own epoll home'
            obtain ⟨nodes, same⟩ := triggerConnect_frame run
            refine ⟨ehRetOk, { L₂ with slotTask := Function.update L₂.slotTask s (some t) }, ?_,
              .inr ⟨rfl, a, _, holds, Function.update_self .., ?_, home, ?_, .inr ⟨dead, rfl⟩⟩⟩
            · simp [run]
            · rw [nodes]
              change (L₁.cbNodes.initHead (.cbHead a)).add s (.cbHead a) = _
              rw [cbNodes, Placing.initHead_eq empty.1]
            · rw [same]
              exact loop
        · rw [if_neg memory]
          dsimp only
          rw [if_pos (by decide)]
          exact ⟨_, _, rfl, .inl ⟨by decide, kept, .inr rfl⟩⟩
    · rw [if_pos (not_not.mp own)]
      exact ⟨_, _, rfl, .inl ⟨by decide, h, .inl rfl⟩⟩
  · rw [if_pos (Option.isSome_iff_ne_none.mpr home)]
    exact ⟨_, _, rfl, .inl ⟨by decide, h, .inl rfl⟩⟩

theorem Holds.disconnect (h : Holds taskEvent L owner pinner)
    (own : L.cbNodes.home s = none ∨ ∃ t, L.Connected s t e) :
    ∃ L', L.ehEventCbDisconnect e s = some L' ∧ (∃ owner', Holds taskEvent L' owner' pinner) ∧
      (L'.cbNodes = L.cbNodes ∨ L'.cbNodes = L.cbNodes.delInit s) ∧ L'.loop = L.loop ∧
      ∀ u f, L.receptor u f = none → L'.receptor u f = none := by
  rw [SlotLayer.ehEventCbDisconnect]
  rcases own with home | ⟨t, a, known, mem⟩
  · rw [home]
    exact ⟨L, rfl, ⟨owner, h⟩, .inl rfl, rfl, fun _ _ no => no⟩
  · have own := (h.registered t e a).mp known
    have task := (h.ok a).task t e own s mem
    obtain ⟨j, home⟩ : ∃ j, L.cbNodes.home s = some j := by
      rcases h.mem_slots.mp mem with home | home
      · exact ⟨_, home⟩
      · exact ⟨_, home⟩
    rw [home, task]
    dsimp only
    rw [if_neg (by simp [h.epoll t e (by simp [known])]), known]
    obtain ⟨left, L₁, run, some_left, none_left⟩ := h.detach own mem
    obtain ⟨nodes, loop, receptor⟩ := triggerDisconnect_frame run
    simp only [run, Option.bind_eq_bind, Option.bind_some, Option.pure_def]
    by_cases zero : left = 0
    · refine ⟨_, if_neg (not_not.mpr zero), ⟨_, none_left zero⟩, .inr ?_, ?_, fun u f no => ?_⟩
      · rw [delEvent_cbNodes, nodes]
      · rw [delEvent_loop, loop]
      · rw [delEvent_receptor, receptor]
        split
        · rfl
        · exact no
    · refine ⟨_, if_pos zero, ⟨_, some_left zero⟩, .inr nodes, loop, fun u f no => ?_⟩
      rw [receptor]
      exact no

theorem Holds.cleanFromTask (h : Holds taskEvent L owner pinner)
    (idle : ∀ a, L.receptor t e = some (some a) → L.cbNodes.list (.usedTmpList a) = []) :
    ∃ L', L.ehEventCbCleanFromTask e t = some L' ∧
      (∃ owner', Holds taskEvent L' owner' pinner) ∧
      (L'.cbNodes = L.cbNodes ∨
        ∃ a, L.receptor t e = some (some a) ∧ L'.cbNodes = L.cbNodes.delAll (.cbHead a)) ∧
      L'.loop = L.loop ∧ (e ≠ taskEvent t → L'.receptor t e = none) ∧
      (∀ u f, L.receptor u f = none → L'.receptor u f = none) ∧
      ∀ s, L.Connected s t e → L'.cbNodes.home s = none := by
  have nothing : ¬ (∃ a, L.receptor t e = some (some a)) → (e ≠ taskEvent t → L.receptor t e = none) ∧
      ∀ s, L.Connected s t e → L.cbNodes.home s = none := by
    intro no
    refine ⟨fun other => ?_, fun s connected => absurd ⟨_, connected.choose_spec.1⟩ no⟩
    cases known : L.receptor t e with
    | none => rfl
    | some userdata =>
      cases userdata with
      | none => exact absurd (h.bare t e known) other
      | some a => exact absurd ⟨a, known⟩ no
  rw [SlotLayer.ehEventCbCleanFromTask]
  by_cases epoll : L.hasEpoll t = false
  · rw [if_pos epoll]
    have no : ¬ ∃ a, L.receptor t e = some (some a) := by
      rintro ⟨a, known⟩
      rw [h.epoll t e (by simp [known])] at epoll
      cases epoll
    obtain ⟨unknown, alone⟩ := nothing no
    exact ⟨L, rfl, ⟨owner, h⟩, .inl rfl, rfl, unknown, fun _ _ no => no, alone⟩
  · rw [if_neg epoll]
    by_cases some_trigger : ∃ a, L.receptor t e = some (some a)
    · obtain ⟨a, known⟩ := some_trigger
      rw [known]
      obtain ⟨L₁, run, holds, nodes, receptor, loop⟩ :=
        h.drop ((h.registered t e a).mp known) (idle a known)
      refine ⟨_, by simp only [run, Option.bind_eq_bind, Option.bind_some, Option.pure_def],
        ⟨_, holds⟩, .inr ⟨a, rfl, ?_⟩, ?_, fun _ => ?_, fun u f no => ?_, ?_⟩
      · rw [delEvent_cbNodes, nodes]
      · rw [delEvent_loop, loop]
      · rw [delEvent_receptor, if_pos ⟨rfl, rfl⟩]
      · rw [delEvent_receptor, receptor]
        split
        · rfl
        · exact no
      · rintro s ⟨b, known', mem⟩
        obtain rfl : a = b := by simpa using known.symm.trans known'
        rw [SlotLayer.slots, idle a known, List.append_nil, h.proper.mem] at mem
        rw [delEvent_cbNodes, nodes, h.proper.delAll_eq]
        exact if_pos mem
    · obtain ⟨unknown, alone⟩ := nothing some_trigger
      refine ⟨L, ?_, ⟨owner, h⟩, .inl rfl, rfl, unknown, fun _ _ no => no, alone⟩
      cases known : L.receptor t e with
      | none => rfl
      | some userdata =>
        cases userdata with
        | none => rfl
        | some a => exact absurd ⟨a, known⟩ some_trigger

omit [DecidableEq S] [DecidableEq A] in
theorem Holds.delBare (h : Holds taskEvent L owner pinner) (bare : L.receptor t e = some none) :
    Holds taskEvent (L.ehEpollDelEvent t e) owner pinner := by
  have dispatching : (L.ehEpollDelEvent t e).dispatching = L.dispatching := by
    funext u
    rw [SlotLayer.dispatching, SlotLayer.dispatching, delEvent_loop]
  have pinned : (L.ehEpollDelEvent t e).pinned = L.pinned := by
    funext u
    rw [SlotLayer.pinned, SlotLayer.pinned, delEvent_loop]
  refine ⟨by rw [delEvent_cbNodes]; exact h.proper, fun a => ?_, fun u f b => ?_,
    fun u f at_ => ?_, h.other, fun u b => ?_, fun u => ?_, fun u f known => ?_,
    delEvent_wired h.wired (fun _ _ => Iff.rfl) t e⟩
  · rw [delEvent_view, dispatching, delEvent_slotTask]
    exact h.ok a
  · rw [delEvent_receptor]
    split
    · next here =>
      rw [← h.registered, here.1, here.2, bare]
      simp
    · exact h.registered u f b
  · rw [delEvent_receptor] at at_
    split at at_
    · cases at_
    · exact h.bare u f at_
  · rw [pinned]
    exact h.pins u b
  · rw [pinned]
    exact h.pins_nodup u
  · rw [delEvent_receptor] at known
    rw [delEvent_hasEpoll]
    split at known
    · exact absurd rfl known
    · exact h.epoll u f known

/-! A batch. -/

/-- The first loop has these slots of the batch to come. -/
structure Beginning (taskEvent : T → E) (L : SlotLayer T E S A) (owner : A → Option (T × E))
    (pinner : A → Option T) (t : T) (todo : List (EpollSlot E A)) : Prop where
  holds : Holds taskEvent L owner pinner
  inLoop : ∃ slots, L.loop t = some slots
  idle : ∀ a, pinner a = some t → L.cbNodes.list (.usedTmpList a) = []
  registered : ∀ x ∈ todo, L.receptor t x.event = some x.userdata
  free : ∀ x ∈ todo, ∀ a, x.userdata = some a → pinner a = none
  nodup : (todo.map EpollSlot.event).Nodup

structure Fewer (L L' : SlotLayer T E S A) (t : T) : Prop where
  home : ∀ s, L'.cbNodes.home s = L.cbNodes.home s ∨ L'.cbNodes.home s = none
  receptor : ∀ u f, L.receptor u f = none → L'.receptor u f = none
  loop : ∀ u ≠ t, L'.loop u = L.loop u

omit [DecidableEq T] [DecidableEq E] [DecidableEq S] [DecidableEq A] in
theorem Fewer.refl (L : SlotLayer T E S A) (t : T) : Fewer L L t :=
  ⟨fun _ => .inl rfl, fun _ _ no => no, fun _ _ => rfl⟩

omit [DecidableEq T] [DecidableEq E] [DecidableEq S] [DecidableEq A] in
theorem Fewer.trans {L'' : SlotLayer T E S A} (h : Fewer L L' t) (h' : Fewer L' L'' t) :
    Fewer L L'' t where
  home s := by
    rcases h'.home s with same | gone
    · rw [same]
      exact h.home s
    · exact .inr gone
  receptor u f no := h'.receptor u f (h.receptor u f no)
  loop u ne := (h'.loop u ne).trans (h.loop u ne)

omit [DecidableEq T] [DecidableEq E] [DecidableEq S] [DecidableEq A] in
theorem Fewer.unlinked (h : Fewer L L' t) (out : L.cbNodes.home s = none) :
    L'.cbNodes.home s = none :=
  (h.home s).elim (fun same => same.trans out) id

omit [DecidableEq E] [DecidableEq S] [DecidableEq A] in
theorem Beginning.store {todo : List (EpollSlot E A)}
    (h : Beginning taskEvent L owner pinner t todo) {y : EpollSlot E A} (bare : y.userdata = none) :
    Beginning taskEvent (L.setLoop t (some ((L.loop t).getD [] ++ [y]))) owner pinner t todo := by
  refine ⟨h.holds.reloop ?_ h.idle, ⟨_, Function.update_self ..⟩, h.idle, h.registered, h.free,
    h.nodup⟩
  rw [SlotLayer.pinned, Option.getD_some, List.filterMap_append]
  simp [bare]

omit [DecidableEq E] [DecidableEq S] [DecidableEq A] in
theorem fewer_setLoop (L : SlotLayer T E S A) (t : T) (o : Option (List (EpollSlot E A))) :
    Fewer L (L.setLoop t o) t :=
  ⟨fun _ => .inl rfl, fun _ _ no => no, fun _ ne => Function.update_of_ne ne ..⟩

omit [DecidableEq S] [DecidableEq A] in
theorem fewer_delEvent (L : SlotLayer T E S A) (t u : T) (e : E) :
    Fewer L (L.ehEpollDelEvent u e) t := by
  refine ⟨fun s => .inl (by rw [delEvent_cbNodes]), fun v f no => ?_, fun v _ => ?_⟩
  · rw [delEvent_receptor]
    split
    · rfl
    · exact no
  · rw [delEvent_loop]

theorem Beginning.slot {x : EpollSlot E A} {todo : List (EpollSlot E A)}
    (h : Beginning taskEvent L owner pinner t (x :: todo)) :
    ∃ L', SlotLayer.beginSlot t L x = some L' ∧
      (∃ owner' pinner', Beginning taskEvent L' owner' pinner' t todo) ∧ Fewer L L' t ∧
      (∀ y ∈ todo, ∀ s, L.Connected s t y.event → L'.Connected s t y.event) ∧
      (x.affair = .error → L'.receptor t x.event = none ∧
        ∀ s, L.Connected s t x.event → L'.cbNodes.home s = none) := by
  have known := h.registered x List.mem_cons_self
  obtain ⟨out, nodup⟩ := List.nodup_cons.mp h.nodup
  have other : ∀ y ∈ todo, ¬ (t = t ∧ y.event = x.event) := fun y mem eq =>
    out (List.mem_map.mpr ⟨y, mem, eq.2⟩)
  have registered : ∀ y ∈ todo, L.receptor t y.event = some y.userdata := fun y mem =>
    h.registered y (List.mem_cons_of_mem x mem)
  have free : ∀ y ∈ todo, ∀ a, y.userdata = some a → pinner a = none := fun y mem =>
    h.free y (List.mem_cons_of_mem x mem)
  have idle_of : ∀ {b}, pinner b = none → L.cbNodes.list (.usedTmpList b) = [] := by
    intro b unpinned
    by_contra some
    obtain ⟨u, pinned, -⟩ := (h.holds.ok b).used some
    rw [unpinned] at pinned
    cases pinned
  rw [SlotLayer.beginSlot]
  cases affair : x.affair with
  | error =>
    cases userdata : x.userdata with
    | none =>
      rw [userdata] at known
      have deleted : Beginning taskEvent (L.ehEpollDelEvent t x.event) owner pinner t todo := by
        refine ⟨h.holds.delBare known, by rw [delEvent_loop]; exact h.inLoop,
          by rw [delEvent_cbNodes]; exact h.idle, fun y mem => ?_, free, nodup⟩
        rw [delEvent_receptor, if_neg (other y mem)]
        exact registered y mem
      refine ⟨_, rfl, ⟨owner, pinner, deleted.store userdata⟩,
        (fewer_delEvent L t t x.event).trans (fewer_setLoop _ t _), fun y mem s => ?_,
        fun _ => ⟨?_, ?_⟩⟩
      · rintro ⟨b, trigger, linked⟩
        refine ⟨b, ?_, ?_⟩
        · change (L.ehEpollDelEvent t x.event).receptor t y.event = _
          rw [delEvent_receptor, if_neg (other y mem), trigger]
        · change s ∈ (L.ehEpollDelEvent t x.event).slots b
          rwa [SlotLayer.slots, delEvent_cbNodes]
      · change (L.ehEpollDelEvent t x.event).receptor t x.event = none
        rw [delEvent_receptor, if_pos ⟨rfl, rfl⟩]
      · rintro s ⟨a, trigger, -⟩
        rw [known] at trigger
        cases trigger
    | some a =>
      rw [userdata] at known
      have own := (h.holds.registered t x.event a).mp known
      have idle := idle_of (h.free x List.mem_cons_self a userdata)
      obtain ⟨L₁, run, holds, nodes, receptor, loop⟩ := h.holds.drop own idle
      have home : ∀ s, L₁.cbNodes.home s =
          if L.cbNodes.home s = some (.cbHead a) then none else L.cbNodes.home s := fun s => by
        rw [nodes, h.holds.proper.delAll_eq]
      have list : ∀ j, L₁.cbNodes.list j =
          if j = .cbHead a then [] else L.cbNodes.list j := fun j => by
        rw [nodes, h.holds.proper.delAll_eq]
        exact Function.update_apply ..
      have fewer : Fewer L L₁ t := by
        refine ⟨fun s => ?_, fun u f no => receptor ▸ no, fun u _ => by rw [loop]⟩
        rw [home]
        split
        · exact .inr rfl
        · exact .inl rfl
      have deleted : Beginning taskEvent (L₁.ehEpollDelEvent t x.event)
          (Function.update owner a none) pinner t todo := by
        refine ⟨holds, by rw [delEvent_loop, loop]; exact h.inLoop, fun b pinned => ?_,
          fun y mem => ?_, free, nodup⟩
        · rw [delEvent_cbNodes, list, if_neg (by simp)]
          exact h.idle b pinned
        · rw [delEvent_receptor, if_neg (other y mem), receptor]
          exact registered y mem
      refine ⟨_, by simp only [run, Option.bind_eq_bind, Option.bind_some, Option.pure_def],
        ⟨_, pinner, deleted.store (y := ⟨x.event, none, .error⟩) rfl⟩,
        (fewer.trans (fewer_delEvent L₁ t t x.event)).trans (fewer_setLoop _ t _),
        fun y mem s => ?_, fun _ => ⟨?_, ?_⟩⟩
      · rintro ⟨b, trigger, linked⟩
        have ne : b ≠ a := by
          rintro rfl
          have own' := (h.holds.registered t y.event b).mp trigger
          rw [own] at own'
          exact other y mem ⟨rfl, (congrArg Prod.snd (Option.some.inj own')).symm⟩
        refine ⟨b, ?_, ?_⟩
        · change (L₁.ehEpollDelEvent t x.event).receptor t y.event = _
          rw [delEvent_receptor, if_neg (other y mem), receptor, trigger]
        · change s ∈ (L₁.ehEpollDelEvent t x.event).slots b
          rw [SlotLayer.slots, delEvent_cbNodes, list, list, if_neg (by simpa using ne),
            if_neg (by simp)]
          exact linked
      · change (L₁.ehEpollDelEvent t x.event).receptor t x.event = none
        rw [delEvent_receptor, if_pos ⟨rfl, rfl⟩]
      · rintro s ⟨b, trigger, mem⟩
        obtain rfl : a = b := by simpa using known.symm.trans trigger
        change (L₁.ehEpollDelEvent t x.event).cbNodes.home s = none
        rw [SlotLayer.slots, idle, List.append_nil, h.holds.proper.mem] at mem
        rw [delEvent_cbNodes, home, if_pos mem]
  | eventTrigger =>
    cases userdata : x.userdata with
    | none =>
      have begun : Beginning taskEvent L owner pinner t todo :=
        ⟨h.holds, h.inLoop, h.idle, registered, free, nodup⟩
      exact ⟨_, rfl, ⟨owner, pinner, begun.store userdata⟩, fewer_setLoop L t _,
        fun _ _ _ connected => connected, fun no => by cases no⟩
    | some a =>
      rw [userdata] at known
      have own := (h.holds.registered t x.event a).mp known
      have unpinned := h.free x List.mem_cons_self a userdata
      obtain ⟨slots, at_⟩ := h.inLoop
      obtain ⟨L₁, run, holds, nodes, receptor, loop⟩ := h.holds.pin own unpinned at_ userdata
      refine ⟨L₁.setLoop t (some ((L₁.loop t).getD [] ++ [x])), ?_,
        ⟨owner, Function.update pinner a (some t), ⟨?_, ⟨_, Function.update_self ..⟩, ?_, ?_, ?_,
          nodup⟩⟩, ?_, fun y _ s => ?_, fun no => by cases no⟩
      · simp only [run, Option.bind_eq_bind, Option.bind_some, Option.pure_def]
      · rw [loop, at_]
        exact holds
      · intro b pinned
        change L₁.cbNodes.list _ = []
        rw [nodes]
        by_cases eq : b = a
        · rw [eq]
          exact idle_of unpinned
        · rw [Function.update_of_ne eq] at pinned
          exact h.idle b pinned
      · intro y mem
        change L₁.receptor t y.event = _
        rw [receptor]
        exact registered y mem
      · intro y mem b data
        have ne : b ≠ a := by
          rintro rfl
          have own' := (h.holds.registered t y.event b).mp (data ▸ registered y mem)
          rw [own] at own'
          exact other y mem ⟨rfl, (congrArg Prod.snd (Option.some.inj own')).symm⟩
        rw [Function.update_of_ne ne]
        exact free y mem b data
      · refine Fewer.trans ⟨fun s => ?_, fun u f no => ?_, fun u _ => ?_⟩ (fewer_setLoop L₁ t _)
        · rw [nodes]
          exact .inl rfl
        · rwa [receptor]
        · rw [loop]
      · rintro ⟨b, trigger, linked⟩
        refine ⟨b, ?_, ?_⟩
        · change L₁.receptor t y.event = _
          rw [receptor, trigger]
        · change s ∈ L₁.slots b
          rwa [SlotLayer.slots, nodes]

theorem Beginning.batch {todo : List (EpollSlot E A)}
    (h : Beginning taskEvent L owner pinner t todo) :
    ∃ L', todo.foldlM (SlotLayer.beginSlot t) L = some L' ∧
      (∃ owner' pinner', Beginning taskEvent L' owner' pinner' t []) ∧ Fewer L L' t ∧
      ∀ x ∈ todo, x.affair = .error → L'.receptor t x.event = none ∧
        ∀ s, L.Connected s t x.event → L'.cbNodes.home s = none := by
  induction todo generalizing L owner pinner with
  | nil => exact ⟨L, rfl, ⟨owner, pinner, h⟩, .refl L t, fun _ mem => (List.not_mem_nil mem).elim⟩
  | cons x todo ih =>
    obtain ⟨L₁, first, ⟨owner', pinner', begun⟩, fewer, others, failed⟩ := h.slot
    obtain ⟨L₂, rest, last, fewer', failed'⟩ := ih begun
    refine ⟨L₂, ?_, last, fewer.trans fewer', fun y mem error => ?_⟩
    · rw [List.foldlM_cons, first]
      exact rest
    · rcases List.mem_cons.mp mem with rfl | mem
      · obtain ⟨gone, alone⟩ := failed error
        exact ⟨fewer'.receptor _ _ gone, fun s connected => fewer'.unlinked (alone s connected)⟩
      · obtain ⟨gone, alone⟩ := failed' y mem error
        exact ⟨gone, fun s connected => alone s (others y mem s connected)⟩

end EventHub.EventCb
