import EventHub.EventCb.Runs

/-! `eh_event_cb_clean_from_task`, and what happens after it. It does not see the slots that a
dispatch of the event has called. -/

namespace EventHub.EventCb
open Library Kernel Event

variable {T E S A : Type}

/-- Since an event was cleaned from a task in the state `L`, these steps have been made. -/
structure Disconnected (taskEvent : T → E) (L : SlotLayer T E S A) (e : E) (t : T)
    (ms : List (SlotLabel T E S A)) (L' : SlotLayer T E S A) : Prop where
  /-- A slot that is not connected again is in no list. -/
  slots : ∀ s, L.Connected s t e → (∀ f u mem, .connect f s u mem ∉ ms) →
    L'.cbNodes.home s = none
  freed : ∀ s a, s ∈ L'.slots a → L'.trigger a ≠ none
  entry : e ≠ taskEvent t → (∀ s mem, .connect e s t mem ∉ ms) → L'.receptor t e = none

variable {L L' : SlotLayer T E S A} {taskEvent : T → E} {owner : A → Option (T × E)}
  {pinner : A → Option T} {a : A} {t : T} {e : E} {s : S} {l : SlotLabel T E S A}
  {ls ms : List (SlotLabel T E S A)}

theorem Moved.home_none (h : Moved L L' s l) (out : L.cbNodes.home s = none)
    (label : ∀ e t mem, l ≠ .connect e s t mem) : L'.cbNodes.home s = none := by
  cases h with
  | stays same => rw [same, out]
  | unlinked gone => exact gone
  | connected => exact absurd rfl (label _ _ _)
  | called _ _ home => rw [out] at home; cases home
  | restored _ _ home => rw [out] at home; cases home

variable [DecidableEq T] [DecidableEq E] [DecidableEq S] [DecidableEq A]

theorem home_none_run (h : Holds taskEvent L owner pinner)
    (run : Run (SlotLayer.SoundStep taskEvent) L ms L') (out : L.cbNodes.home s = none)
    (labels : ∀ e t mem, .connect e s t mem ∉ ms) : L'.cbNodes.home s = none := by
  refine (run.invariant_of_forall (P := fun l => ∀ e t mem, l ≠ .connect e s t mem)
    (I := fun L => (∃ owner pinner, Holds taskEvent L owner pinner) ∧ L.cbNodes.home s = none)
    ?_ ?_ ⟨⟨owner, pinner, h⟩, out⟩).2
  · rintro L l L' ⟨⟨owner, pinner, holds⟩, out⟩ label step
    have effect := SoundStep.effect holds step
    exact ⟨effect.holds, (effect.moved s).home_none out label⟩
  · exact fun l mem f u m eq => labels f u m (eq ▸ mem)

theorem receptor_none_run (h : Holds taskEvent L owner pinner)
    (run : Run (SlotLayer.SoundStep taskEvent) L ms L') (other : e ≠ taskEvent t)
    (out : L.receptor t e = none) (labels : ∀ s mem, .connect e s t mem ∉ ms) :
    L'.receptor t e = none := by
  refine (run.invariant_of_forall (P := fun l => ∀ s mem, l ≠ .connect e s t mem)
    (I := fun L => (∃ owner pinner, Holds taskEvent L owner pinner) ∧ L.receptor t e = none)
    ?_ ?_ ⟨⟨owner, pinner, h⟩, out⟩).2
  · rintro L l L' ⟨⟨owner, pinner, holds⟩, out⟩ label step
    have effect := SoundStep.effect holds step
    exact ⟨effect.holds, effect.receptor other out label⟩
  · exact fun l mem s m eq => labels s m (eq ▸ mem)

theorem Holds.disconnected (h : Holds taskEvent L owner pinner) (uncalled : L.Uncalled t e) :
    ∃ L₁, L.ehEventCbCleanFromTask e t = some L₁ ∧
      ∀ {ms L'}, Run (SlotLayer.SoundStep taskEvent) L₁ ms L' →
        Disconnected taskEvent L e t ms L' := by
  obtain ⟨L₁, clean, ⟨owner', holds⟩, -, -, entry, -, slots⟩ := h.cleanFromTask uncalled
  refine ⟨L₁, clean, fun {ms L'} run => ⟨fun s connected labels => ?_, fun s a mem => ?_,
    fun other labels => ?_⟩⟩
  · exact home_none_run holds run (slots s connected) labels
  · obtain ⟨_, _, after⟩ := SoundStep.run run ⟨_, _, holds⟩
    exact (after.bookkept.allocated a).mpr (.inl (List.ne_nil_of_mem mem))
  · exact receptor_none_run holds run other (entry other) labels

omit [DecidableEq E] in
theorem nextSlot_free {x : EpollSlot E A} {rest : List (EpollSlot E A)} {g : Trigger}
    (loop : L.loop t = some (x :: rest)) (data : x.userdata = some a)
    (trigger : L.trigger a = some g) (empty : L.cbNodes.list (.cbHead a) = [])
    (zero : g.connectCnt = 0) :
    ∃ L', L.nextSlot t = some L' ∧ L'.loop t = some rest ∧ L'.trigger a = none ∧
      ∀ s, L.cbNodes.home s = some (.usedTmpList a) → L'.cbNodes.home s = some (.cbHead a) := by
  obtain ⟨L₀, eq⟩ : ∃ L₀, L₀ = SlotLayer.setTrigger
      { L with cbNodes := L.cbNodes.splice (.usedTmpList a) (.cbHead a) } a
      (some { g with forcedRef := false }) := ⟨_, rfl⟩
  have trigger₀ : L₀.trigger a = some { g with forcedRef := false } := by
    rw [eq]
    exact Function.update_self ..
  have release : SlotLayer.triggerForcedReleaseRef
      { L with cbNodes := L.cbNodes.splice (.usedTmpList a) (.cbHead a) } a =
        some (L₀.freed a) := by
    rw [SlotLayer.triggerForcedReleaseRef]
    simp only [trigger, Option.bind_eq_bind, Option.bind_some, if_pos zero, ← eq,
      ehFree_eq trigger₀]
  refine ⟨(L₀.freed a).enter t rest, nextSlot_finish loop data trigger empty release,
    Function.update_self .., Function.update_self .., fun s home => ?_⟩
  rw [enter_home, show (L₀.freed a).cbNodes = L₀.cbNodes from rfl, eq]
  exact if_pos home

/-- The slots that the loop has called come back into `cb_head` of the trigger, which is then
freed. -/
theorem Holds.left_linked (h : Holds taskEvent L owner pinner)
    (known : L.receptor t e = some (some a)) (mem : s ∈ L.cbNodes.list (.usedTmpList a)) :
    ∃ L₁ L₂, L.ehEventCbCleanFromTask e t = some L₁ ∧ L₁.loop t ≠ none ∧
      L₁.nextSlot t = some L₂ ∧ L₂.dispatching t ≠ some a ∧
      L₂.cbNodes.home s = some (.cbHead a) ∧ L₂.trigger a = none := by
  have own := (h.registered t e a).mp known
  obtain ⟨u, pinned, here⟩ := (h.ok a).used (List.ne_nil_of_mem mem)
  obtain rfl : u = t := (h.ok a).same t e u own pinned
  obtain ⟨g, trigger⟩ := h.trigger_of_owner own
  have forced : g.forcedRef = true := ((h.ok a).forced g trigger).mpr (by simp [pinned])
  obtain ⟨L₀, eq, cleaned⟩ := triggerClean_eq trigger
  rw [forced, if_pos rfl] at cleaned
  obtain ⟨x, rest, loop, data⟩ := loop_of_dispatching here
  obtain ⟨L₁, del⟩ : ∃ L₁, L₁ = L₀.ehEpollDelEvent u e := ⟨_, rfl⟩
  have clean : L.ehEventCbCleanFromTask e u = some L₁ := by
    rw [SlotLayer.ehEventCbCleanFromTask, if_neg (by simp [h.epoll u e (by simp [known])]), known]
    simp only [cleaned, Option.bind_eq_bind, Option.bind_some, Option.pure_def, del]
  have nodes : L₁.cbNodes = L.cbNodes.delAll (.cbHead a) := by
    rw [del, delEvent_cbNodes, eq]
  have loop₁ : L₁.loop u = some (x :: rest) := by
    rw [del, delEvent_loop, eq]
    exact loop
  have trigger₁ : L₁.trigger a = some { g with connectCnt := 0 } := by
    rw [del, show (L₀.ehEpollDelEvent u e).trigger a = L₀.trigger a from
      congrArg View.trigger (delEvent_view L₀ u e a), eq]
    exact Function.update_self ..
  have empty : L₁.cbNodes.list (.cbHead a) = [] := by
    rw [nodes, h.proper.delAll_eq]
    exact Function.update_self ..
  have home : L₁.cbNodes.home s = some (.usedTmpList a) := by
    rw [nodes, h.proper.delAll_eq]
    dsimp only
    rw [h.proper.mem.mp mem, if_neg (by simp)]
  have out : rest.head?.bind EpollSlot.userdata ≠ some a := by
    have nodup := h.pins_nodup u
    rw [pinned_of_loop loop, List.filterMap_cons_some data] at nodup
    exact fun first => (List.nodup_cons.mp nodup).1 (mem_userdata first)
  obtain ⟨L₂, next, loop₂, freed, back⟩ := nextSlot_free loop₁ data trigger₁ empty rfl
  refine ⟨L₁, L₂, clean, by simp [loop₁], next, ?_, back s home, freed⟩
  rw [dispatching_of_loop loop₂]
  exact out

/-- A clean disconnects every slot of the event exactly where the loop of the task has called
none of them. -/
theorem ehEventCbCleanFromTask_disconnects_iff (t : T) (e : E)
    (run : Run (SlotLayer.SoundStep taskEvent) (SlotLayer.init : SlotLayer T E S A) ls L) :
    (∃ L₁, L.step taskEvent (.cleanFromTask e t) = some L₁ ∧
      ∀ ms L₂, Run (SlotLayer.SoundStep taskEvent) L₁ ms L₂ →
        (∀ a, L.receptor t e = some (some a) → L₂.dispatching t ≠ some a) →
        Disconnected taskEvent L e t ms L₂) ↔ L.Uncalled t e := by
  obtain ⟨owner, pinner, holds⟩ := SoundStep.run run ⟨_, _, holds_init taskEvent⟩
  constructor
  · rintro ⟨L₁, cleaned, all⟩ a known
    by_contra called
    obtain ⟨s, mem⟩ := List.exists_mem_of_ne_nil _ called
    obtain ⟨L₁', L₂, clean, inLoop, next, finished, linked, -⟩ := holds.left_linked known mem
    cases cleaned.symm.trans clean
    have gone := (all [.next t] L₂ (.single ⟨inLoop, trivial, next⟩) fun b known' => by
      cases known.symm.trans known'
      exact finished).slots s ⟨a, known, List.mem_append_right _ mem⟩ (by simp)
    rw [linked] at gone
    cases gone
  · intro uncalled
    obtain ⟨L₁, clean, after⟩ := holds.disconnected uncalled
    exact ⟨L₁, clean, fun ms L₂ run _ => after run⟩

theorem cleanedFirst_runs : ∃ L L₁ L₂,
    Run (SlotLayer.SoundStep fun _ => false) (SlotLayer.init : SlotLayer Unit Bool Unit Unit)
      (oneCall.take 3) L ∧ L.Connected () () true ∧ L.Uncalled () true ∧
    L.step (fun _ => false) (.cleanFromTask true ()) = some L₁ ∧
    L₁.SoundStep (fun _ => false) (.next ()) L₂ ∧ L₂.dispatching () = none := by
  refine ⟨_, _, _, .cons ⟨fun _ _ => rfl, ⟨fun lacks => ?_, fun a eq => ?_⟩, rfl⟩ <|
    .cons ⟨trivial, trivial, rfl⟩ <| .single ⟨⟨rfl, rfl⟩, trivial, rfl⟩,
    ⟨(), rfl, List.mem_singleton_self ()⟩, fun a _ => rfl, rfl, ⟨?_, trivial, rfl⟩, rfl⟩
  · cases lacks.2.2.2.2.2
  · cases eq
  · exact Option.some_ne_none _

theorem ehEventCbCleanFromTask_disconnects_iff_one :
    ∃ L L₁ L₂ : SlotLayer Unit Bool Unit Unit, L.Connected () () true ∧
      L.step (fun _ => false) (.cleanFromTask true ()) = some L₁ ∧
      L₁.step (fun _ => false) (.next ()) = some L₂ ∧ L₂.cbNodes.home () = none := by
  obtain ⟨L, L₁, L₂, run, connected, uncalled, clean, next, finished⟩ := cleanedFirst_runs
  obtain ⟨L₁', clean', all⟩ := (ehEventCbCleanFromTask_disconnects_iff () true run).mpr uncalled
  cases clean.symm.trans clean'
  refine ⟨L, L₁, L₂, connected, clean, next.2.2, ?_⟩
  exact (all [.next ()] L₂ (.single next) fun a _ => by simp [finished]).slots () connected (by simp)

/-- The event is cleaned in the call of its slot, which comes back into `cb_head` of the trigger
that is freed. -/
theorem ehEventCbCleanFromTask_leaves_linked : ∃ L L₁ L₂,
    Run (SlotLayer.SoundStep fun _ => false) (SlotLayer.init : SlotLayer Unit Bool Unit Unit)
      (oneCall.take 4) L ∧ L.Connected () () true ∧
    L.step (fun _ => false) (.cleanFromTask true ()) = some L₁ ∧
    L₁.SoundStep (fun _ => false) (.next ()) L₂ ∧ L₂.dispatching () = none ∧
    L₂.cbNodes.home () = some (.cbHead ()) ∧ L₂.trigger () = none := by
  refine ⟨_, _, _, .cons ⟨fun _ _ => rfl, ⟨fun lacks => ?_, fun a eq => ?_⟩, rfl⟩ <|
    .cons ⟨trivial, trivial, rfl⟩ <| .cons ⟨⟨rfl, rfl⟩, trivial, rfl⟩ <|
    .single ⟨?_, trivial, rfl⟩, ⟨(), rfl, List.mem_singleton_self ()⟩, rfl, ⟨?_, trivial, rfl⟩,
    rfl, rfl, rfl⟩
  · cases lacks.2.2.2.2.2
  · cases eq
  · exact Option.some_ne_none _
  · exact Option.some_ne_none _

end EventHub.EventCb
