import EventHub.EventCb.Runs

/-! `eh_event_cb_connect` where memory is short. It allocates the epoll of the task, the receptor
and the trigger, and takes nothing back when the last of them fails. -/

namespace EventHub.EventCb
open Library Kernel Event

variable {T E S A : Type}

structure Mallocs.Enough (mem : Mallocs A) : Prop where
  epoll : mem.epoll = true
  ownReceptor : mem.ownReceptor = true
  receptor : mem.receptor = true
  trigger : mem.trigger ≠ none

section Failing
variable [DecidableEq T] [DecidableEq E] [DecidableEq S] [DecidableEq A]

/-- What is left of a call that fails: nothing but, perhaps, the epoll of the task. -/
structure AllOrNothing (taskEvent : T → E) (L L' : SlotLayer T E S A) (e : E) : Prop where
  receptor : ∀ u f, L.hasEpoll u = true ∨ f ≠ taskEvent u → L'.receptor u f = L.receptor u f
  trigger : L'.trigger = L.trigger
  cbNodes : L'.cbNodes = L.cbNodes
  slotTask : L'.slotTask = L.slotTask
  /-- A slot can be connected to the event later. -/
  later : ∀ {ms L₂ s u mem}, Run (SlotLayer.SoundStep taskEvent) L' ms L₂ →
    L₂.cbNodes.home s = none → e ≠ taskEvent u → mem.Enough →
    L₂.Enabled (.connect e s u mem) → L₂.Fits u e →
    ∃ L₃, L₂.ehEventCbConnect taskEvent e s u mem = some (ehRetOk, L₃)

variable {L L' : SlotLayer T E S A} {taskEvent : T → E} {owner : A → Option (T × E)}
  {pinner : A → Option T} {t : T} {e : E} {s : S} {mem : Mallocs A} {ret : Int}
  {ls : List (SlotLabel T E S A)}

theorem Holds.connect_error (h : Holds taskEvent L owner pinner)
    (run : L.ehEventCbConnect taskEvent e s t mem = some (ret, L')) (error : ret < 0) :
    L.LacksTrigger taskEvent e s t mem ∨
      (L' = L ∨ L' = (L.taskGetEpollTryNew taskEvent t mem).2) ∧
        (L.cbNodes.home s ≠ none ∨ e = taskEvent t ∨ ¬ mem.Enough) := by
  rw [SlotLayer.ehEventCbConnect] at run
  by_cases home : L.cbNodes.home s = none
  · rw [if_neg (by simp [home])] at run
    by_cases own : e = taskEvent t
    · rw [if_pos own] at run
      cases run
      exact .inr ⟨.inl rfl, .inr (.inl own)⟩
    · rw [if_neg own] at run
      have receptor := h.getEpoll_receptor t mem own
      obtain ⟨-, few, got⟩ | ⟨L₁, got, epoll, reached⟩ := getEpoll_returns taskEvent L t mem
      · rw [got] at run
        cases run
        exact .inr ⟨.inl rfl, .inr (.inr fun enough => few ⟨enough.epoll, enough.ownReceptor⟩)⟩
      · rw [got] at run receptor ⊢
        dsimp only at run receptor ⊢
        rw [if_neg (by decide), SlotLayer.ehEpollAddEventAdvanced] at run
        cases known : L₁.receptor t e with
        | some userdata =>
          -- the call finds a trigger, and succeeds
          rw [known] at run
          dsimp only at run
          rw [if_neg (by decide), if_pos rfl, known] at run
          obtain ⟨_, trigger, run⟩ := Option.bind_eq_some_iff.mp run
          cases trigger
          obtain ⟨a, -, run⟩ := Option.bind_eq_some_iff.mp run
          obtain ⟨L₂, -, run⟩ := Option.bind_eq_some_iff.mp run
          cases run
          exact absurd error (by decide)
        | none =>
          rw [known] at run
          dsimp only at run
          by_cases memory : mem.receptor = true
          · rw [if_pos memory] at run
            dsimp only at run
            rw [if_neg (by decide), if_neg (by decide)] at run
            cases given : mem.trigger with
            | none => exact .inl ⟨home, own, reached, receptor ▸ known, memory, given⟩
            | some a =>
              rw [given] at run
              obtain ⟨L₂, -, run⟩ := Option.bind_eq_some_iff.mp run
              cases run
              exact absurd error (by decide)
          · rw [if_neg memory] at run
            dsimp only at run
            rw [if_pos (by decide)] at run
            cases run
            exact .inr ⟨.inr rfl, .inr (.inr fun enough => memory enough.receptor)⟩
  · rw [if_pos (Option.isSome_iff_ne_none.mpr home)] at run
    cases run
    exact .inr ⟨.inl rfl, .inl home⟩

/-- Where the last allocation fails, the event is registered without a trigger. -/
theorem Holds.connect_lacks (h : Holds taskEvent L owner pinner)
    (lacks : L.LacksTrigger taskEvent e s t mem) :
    ∃ L', L.ehEventCbConnect taskEvent e s t mem = some (ehRetMallocError, L') ∧
      L'.receptor t e = some none := by
  obtain ⟨home, own, reached, unknown, memory, given⟩ := lacks
  have receptor := h.getEpoll_receptor t mem own
  rw [SlotLayer.ehEventCbConnect, if_neg (by simp [home]), if_neg own]
  obtain ⟨out, few, -⟩ | ⟨L₁, got, -, -⟩ := getEpoll_returns taskEvent L t mem
  · exact absurd (reached.resolve_left (by simp [out])) few
  · rw [got] at receptor ⊢
    dsimp only at receptor ⊢
    rw [unknown] at receptor
    rw [if_neg (by decide), SlotLayer.ehEpollAddEventAdvanced, receptor]
    dsimp only
    rw [if_pos memory]
    dsimp only
    rw [if_neg (by decide), if_neg (by decide), given]
    refine ⟨_, rfl, ?_⟩
    change (L₁.setReceptor t e (some none)).receptor t e = _
    rw [setReceptor_receptor, if_pos ⟨rfl, rfl⟩]

theorem Holds.connect_ok (h : Holds taskEvent L owner pinner) (home : L.cbNodes.home s = none)
    (own : e ≠ taskEvent t) (enough : mem.Enough) (enabled : L.Enabled (.connect e s t mem))
    (fits : L.Fits t e) : ∃ L', L.ehEventCbConnect taskEvent e s t mem = some (ehRetOk, L') := by
  have lacks : ¬ L.LacksTrigger taskEvent e s t mem := fun lacks =>
    enough.trigger lacks.2.2.2.2.2
  obtain ⟨ret, L', run, ⟨error, -⟩ | ⟨rfl, -⟩⟩ := h.connect enabled lacks fits
  · obtain ⟨-, busy | same | few⟩ := (h.connect_error run error).resolve_left lacks
    · exact absurd home busy
    · exact absurd same own
    · exact absurd enough few
  · exact ⟨L', run⟩

omit [DecidableEq S] [DecidableEq A] in
theorem getEpoll_kept (L : SlotLayer T E S A) (t : T) (mem : Mallocs A) {u : T}
    (has : L.hasEpoll u = true) (f : E) :
    (L.taskGetEpollTryNew taskEvent t mem).2.receptor u f = L.receptor u f := by
  rcases getEpoll_cases taskEvent L t mem with ⟨-, eq⟩ | ⟨-, -, eq⟩ | ⟨out, -, -, eq⟩
  · rw [eq]
  · rw [eq]
  · rw [eq]
    have ne : u ≠ t := fun same => by
      rw [same, out] at has
      cases has
    exact congrFun (Function.update_of_ne ne ..) f

/-- A call that fails is all or nothing exactly where the trigger of a new receptor is not what
fails. -/
theorem ehEventCbConnect_allOrNothing_iff (e : E) (s : S) (t : T) (mem : Mallocs A)
    (run : Run (SlotLayer.SoundStep taskEvent) (SlotLayer.init : SlotLayer T E S A) ls L) :
    (∀ ret L', L.ehEventCbConnect taskEvent e s t mem = some (ret, L') → ret < 0 →
      AllOrNothing taskEvent L L' e) ↔ ¬ L.LacksTrigger taskEvent e s t mem := by
  obtain ⟨owner, pinner, holds⟩ := SoundStep.run run ⟨_, _, holds_init taskEvent⟩
  constructor
  · intro all lacks
    obtain ⟨L', failed, bare⟩ := holds.connect_lacks lacks
    have same := (all _ L' failed (by decide)).receptor t e (.inr lacks.2.1)
    rw [bare, lacks.2.2.2.1] at same
    cases same
  · intro lacks ret L' made error
    obtain ⟨left, -⟩ := (holds.connect_error made error).resolve_left lacks
    obtain ⟨nodes, trigger, -, slotTask⟩ := getEpoll_frame taskEvent L t mem
    have after : ∃ owner pinner, Holds taskEvent L' owner pinner := by
      rcases left with same | new
      · exact ⟨owner, pinner, same ▸ holds⟩
      · exact ⟨owner, pinner, new ▸ holds.getEpoll t mem⟩
    refine ⟨fun u f known => ?_, ?_, ?_, ?_, fun run home other enough enabled fits => ?_⟩
    · rcases left with same | new
      · rw [same]
      · rw [new]
        rcases known with has | other
        · exact getEpoll_kept L t mem has f
        · exact holds.getEpoll_receptor t mem other
    · rcases left with same | new
      · rw [same]
      · rw [new, trigger]
    · rcases left with same | new
      · rw [same]
      · rw [new, nodes]
    · rcases left with same | new
      · rw [same]
      · rw [new, slotTask]
    · obtain ⟨_, _, later⟩ := SoundStep.run run after
      exact later.connect_ok home other enough enabled fits

end Failing

theorem ehEventCbConnect_allOrNothing_iff_one : ∃ L' : SlotLayer Unit Bool Unit Unit,
    SlotLayer.init.ehEventCbConnect (fun _ => false) true () () ⟨true, true, false, some ()⟩ =
      some (ehRetMallocError, L') ∧ AllOrNothing (fun _ => false) SlotLayer.init L' true := by
  obtain ⟨L', made⟩ : ∃ L' : SlotLayer Unit Bool Unit Unit,
      SlotLayer.init.ehEventCbConnect (fun _ => false) true () () ⟨true, true, false, some ()⟩ =
        some (ehRetMallocError, L') := ⟨_, rfl⟩
  refine ⟨L', made, (ehEventCbConnect_allOrNothing_iff true () () _ (.nil _)).mpr ?_ _ _ made
    (by decide)⟩
  exact fun lacks => by cases lacks.2.2.2.2.1

/-- There is no memory for the trigger; the next call, with enough memory, follows `NULL`. -/
theorem ehEventCbConnect_follows_null : ∃ L L' : SlotLayer Unit Bool Unit Unit,
    L = SlotLayer.init ∧
    L.ehEventCbConnect (fun _ => false) true () () ⟨true, true, true, none⟩ =
      some (ehRetMallocError, L') ∧
    L.receptor () true = none ∧ L'.receptor () true = some none ∧
    L'.ehEventCbConnect (fun _ => false) true () () ⟨true, true, true, some ()⟩ = none :=
  ⟨_, _, rfl, rfl, rfl, rfl, rfl⟩

end EventHub.EventCb
