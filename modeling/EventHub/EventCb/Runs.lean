import EventHub.EventCb.Bookkeeping

/-! Runs of the layer from its start, in which no trigger is lost: what every step does to the
bookkeeping, and what it therefore is in every state. -/

namespace EventHub.EventCb
open Library Kernel Event

variable {T E S A : Type}

inductive Moved (L L' : SlotLayer T E S A) (s : S) : SlotLabel T E S A → Prop
  | stays {l : SlotLabel T E S A} : L'.cbNodes.home s = L.cbNodes.home s → Moved L L' s l
  | unlinked {l : SlotLabel T E S A} : L'.cbNodes.home s = none → Moved L L' s l
  | connected {e : E} {t : T} {mem : Mallocs A} {a : A} : L.cbNodes.home s = none →
      L'.cbNodes.home s = some (.cbHead a) →
      (L.receptor t e = some (some a) ∨ L.trigger a = none) → Moved L L' s (.connect e s t mem)
  | called {t : T} {a : A} : L.dispatching t = some a →
      (L.cbNodes.list (.cbHead a)).head? = some s → L.cbNodes.home s = some (.cbHead a) →
      L'.cbNodes.home s = some (.usedTmpList a) → Moved L L' s (.next t)
  | restored {t : T} {a : A} : L.dispatching t = some a → L.cbNodes.list (.cbHead a) = [] →
      L.cbNodes.home s = some (.usedTmpList a) → L'.cbNodes.home s = some (.cbHead a) →
      Moved L L' s (.next t)

/-! The loop of a task. -/

section Loop
variable {L : SlotLayer T E S A} {taskEvent : T → E} {owner : A → Option (T × E)}
  {pinner : A → Option T} {a : A} {t : T} {s : S}

theorem Holds.uncalled (h : Holds taskEvent L owner pinner) (pinned : pinner a = some t)
    (other : L.dispatching t ≠ some a) : L.cbNodes.list (.usedTmpList a) = [] := by
  by_contra some
  obtain ⟨u, own, here⟩ := (h.ok a).used some
  cases pinned.symm.trans own
  exact other here

theorem Holds.unpinned (h : Holds taskEvent L owner pinner) (out : L.loop t = none) :
    pinner a ≠ some t := by
  rw [Ne, ← h.pins, SlotLayer.pinned, out]
  exact List.not_mem_nil

variable [DecidableEq T] [DecidableEq E] [DecidableEq S] [DecidableEq A]

omit [DecidableEq S] [DecidableEq A] in
theorem Holds.beginning (h : Holds taskEvent L owner pinner) (out : L.loop t = none) :
    Beginning taskEvent (SlotLayer.setLoop { L with events := (L.reports t).2 } t (some []))
      owner pinner t
      ((L.reports t).1.map fun x => ⟨x.1, (L.receptor t x.1).join, x.2⟩) := by
  obtain ⟨nodup, known⟩ := h.wired.reported t ehEventCbEpollSlotSize
  have stored : ∀ x ∈ (L.reports t).1, L.receptor t x.1 = some (L.receptor t x.1).join := by
    intro x mem
    obtain ⟨userdata, eq⟩ := Option.ne_none_iff_exists'.mp (known x mem)
    rw [eq]
    rfl
  refine ⟨?_, ⟨[], Function.update_self ..⟩, fun a pinned => absurd pinned (h.unpinned out),
    fun y mem => ?_, fun y mem a data => ?_, ?_⟩
  · refine (h.events (h.wired.read t ehEventCbEpollSlotSize)).reloop ?_ fun a pinned =>
      absurd pinned (h.unpinned out)
    change [] = ((L.loop t).getD []).filterMap EpollSlot.userdata
    rw [out]
    rfl
  · obtain ⟨x, at_, eq⟩ := List.mem_map.mp mem
    rw [← eq]
    exact stored x at_
  · obtain ⟨x, at_, eq⟩ := List.mem_map.mp mem
    rw [← eq] at data
    dsimp only at data
    have own := (h.registered t x.1 a).mp ((stored x at_).trans (congrArg some data))
    by_contra pinned
    obtain ⟨u, eq⟩ := Option.ne_none_iff_exists'.mp pinned
    exact h.unpinned out (eq.trans (congrArg some ((h.ok a).same t x.1 u own eq)))
  · rw [List.map_map]
    exact nodup

theorem Holds.wait (h : Holds taskEvent L owner pinner) (out : L.loop t = none) :
    ∃ L', L.waitBatch t = some L' ∧ (∃ owner' pinner', Holds taskEvent L' owner' pinner') ∧
      Fewer L L' t ∧ ∀ e, (e, .error) ∈ (L.reports t).1 → L'.receptor t e = none ∧
        ∀ s, L.Connected s t e → L'.cbNodes.home s = none := by
  rw [SlotLayer.waitBatch]
  dsimp only
  have start : Fewer L (SlotLayer.setLoop { L with events := (L.reports t).2 } t (some [])) t :=
    ⟨fun _ => .inl rfl, fun _ _ no => no, fun _ ne => Function.update_of_ne ne ..⟩
  by_cases nothing : (L.reports t).1 = []
  · rw [if_pos nothing]
    refine ⟨_, rfl, ⟨owner, pinner, h.events (h.wired.read t ehEventCbEpollSlotSize)⟩,
      ⟨start.home, start.receptor, fun _ _ => rfl⟩, fun e mem => ?_⟩
    rw [nothing] at mem
    cases mem
  · rw [if_neg nothing]
    obtain ⟨L₁, run, ⟨owner', pinner', begun⟩, fewer, failed⟩ := (h.beginning out).batch
    rw [run]
    obtain ⟨slots, loop⟩ := begun.inLoop
    have pinned := pinned_of_loop loop
    have idle : ∀ b, slots.head?.bind EpollSlot.userdata = some b →
        L₁.cbNodes.list (.usedTmpList b) = [] := by
      intro b head
      refine begun.idle b ((begun.holds.pins t b).mp ?_)
      rw [pinned]
      exact mem_userdata head
    refine ⟨L₁.setLoop t (some slots), ?_, ⟨owner', pinner',
      begun.holds.reloop pinned.symm begun.idle⟩, (start.trans fewer).trans (fewer_setLoop L₁ t _),
      fun e mem => ?_⟩
    · simp only [Option.bind_eq_bind, Option.bind_some, Option.pure_def, loop, Option.getD_some,
        enter_eq idle]
    · exact failed ⟨e, (L.receptor t e).join, .error⟩ (List.mem_map.mpr ⟨_, mem, rfl⟩) rfl

omit [DecidableEq E] in
theorem nextSlot_call {g : Trigger} {l : List S} (here : L.dispatching t = some a)
    (trigger : L.trigger a = some g) (first : L.cbNodes.list (.cbHead a) = s :: l) :
    L.nextSlot t = some { L with cbNodes := L.cbNodes.moveTail s (.usedTmpList a) } := by
  obtain ⟨x, rest, loop, data⟩ := loop_of_dispatching here
  rw [SlotLayer.nextSlot, loop]
  simp only [data, trigger, first, Option.bind_eq_bind, Option.bind_some, Option.pure_def]

omit [DecidableEq E] in
theorem nextSlot_finish {L₁ : SlotLayer T E S A} {g : Trigger} {x : EpollSlot E A}
    {rest : List (EpollSlot E A)} (loop : L.loop t = some (x :: rest)) (data : x.userdata = some a)
    (trigger : L.trigger a = some g) (empty : L.cbNodes.list (.cbHead a) = [])
    (release : SlotLayer.triggerForcedReleaseRef
      { L with cbNodes := L.cbNodes.splice (.usedTmpList a) (.cbHead a) } a = some L₁) :
    L.nextSlot t = some (L₁.enter t rest) := by
  rw [SlotLayer.nextSlot, loop]
  simp only [data, trigger, empty, Option.bind_eq_bind, Option.bind_some, release, Option.pure_def]

omit [DecidableEq T] [DecidableEq E] [DecidableEq S] in
theorem triggerForcedReleaseRef_frame {L' : SlotLayer T E S A}
    (run : L.triggerForcedReleaseRef a = some L') :
    L'.cbNodes = L.cbNodes ∧ L'.receptor = L.receptor ∧ L'.loop = L.loop := by
  rw [SlotLayer.triggerForcedReleaseRef] at run
  obtain ⟨g, -, eq⟩ := Option.bind_eq_some_iff.mp run
  dsimp only at eq
  split at eq
  · obtain ⟨-, -, made⟩ := Option.bind_eq_some_iff.mp eq
    cases made
    exact ⟨rfl, rfl, rfl⟩
  · cases eq
    exact ⟨rfl, rfl, rfl⟩

omit [DecidableEq S] [DecidableEq E] in
theorem enter_home (L : SlotLayer T E S A) (t : T) (slots : List (EpollSlot E A)) :
    (L.enter t slots).cbNodes.home = L.cbNodes.home := by
  rw [SlotLayer.enter]
  cases slots.head?.bind EpollSlot.userdata <;> rfl

omit [DecidableEq E] in
theorem Holds.next (h : Holds taskEvent L owner pinner) (inLoop : L.loop t ≠ none) :
    ∃ L', L.nextSlot t = some L' ∧ (∃ pinner', Holds taskEvent L' owner pinner') ∧
      (∀ s, Moved L L' s (.next t)) ∧ L'.receptor = L.receptor ∧
      ∀ u ≠ t, L'.loop u = L.loop u := by
  obtain ⟨slots, loop⟩ := Option.ne_none_iff_exists'.mp inLoop
  have pinned := pinned_of_loop loop
  cases slots with
  | nil =>
    have nothing : ∀ a, pinner a ≠ some t := by
      intro a
      rw [Ne, ← h.pins, pinned]
      exact List.not_mem_nil
    refine ⟨L.setLoop t none, by rw [SlotLayer.nextSlot, loop]; rfl, ⟨pinner, h.reloop pinned.symm
      fun a own => absurd own (nothing a)⟩, fun _ => .stays rfl, rfl,
      fun _ ne => Function.update_of_ne ne ..⟩
  | cons x rest =>
    have here : L.dispatching t = x.userdata := dispatching_of_loop loop
    cases data : x.userdata with
    | none =>
      have idle : ∀ b, pinner b = some t → L.cbNodes.list (.usedTmpList b) = [] := fun b own =>
        h.uncalled own (by simp [here, data])
      have others : rest.filterMap EpollSlot.userdata = L.pinned t := by
        rw [pinned, List.filterMap_cons_none data]
      have enters : L.enter t rest = L.setLoop t (some rest) := by
        refine enter_eq fun b head => idle b ((h.pins t b).mp ?_)
        rw [← others]
        exact mem_userdata head
      refine ⟨L.setLoop t (some rest), ?_, ⟨pinner, h.reloop others idle⟩, fun _ => .stays rfl,
        rfl, fun _ ne => Function.update_of_ne ne ..⟩
      rw [SlotLayer.nextSlot, loop]
      simp only [data, enters, Option.pure_def]
    | some a =>
      rw [data] at here
      obtain ⟨g, trigger⟩ := h.trigger_of_pinner (h.pinner_of_dispatching here)
      cases first : L.cbNodes.list (.cbHead a) with
      | nil =>
        obtain ⟨L₁, run, holds⟩ := h.finish loop data first
        obtain ⟨nodes, receptor, loop'⟩ := triggerForcedReleaseRef_frame run
        refine ⟨L₁.enter t rest, nextSlot_finish loop data trigger first run, ⟨_, holds⟩,
          fun s => ?_, receptor, fun u ne => (Function.update_of_ne ne ..).trans
            (congrFun loop' u)⟩
        have home : (L₁.enter t rest).cbNodes.home s =
            if L.cbNodes.home s = some (.usedTmpList a) then some (.cbHead a)
            else L.cbNodes.home s := by
          rw [enter_home, nodes]
          rfl
        split at home
        · next used => exact .restored here first used home
        · exact .stays home
      | cons s l =>
        refine ⟨_, nextSlot_call here trigger first, ⟨pinner, h.call here first⟩, fun x => ?_,
          rfl, fun _ _ => rfl⟩
        by_cases eq : x = s
        · subst eq
          have mem : x ∈ L.cbNodes.list (.cbHead a) := by simp [first]
          exact .called here (by rw [first]; rfl) (h.proper.mem.mp mem) (Function.update_self ..)
        · refine .stays ?_
          simp [Placing.moveTail, Placing.delInit_home, eq]

end Loop

/-! Steps. -/

namespace SlotLayer

/-- The loop of the task has called none of the slots that are connected to the event. -/
def Uncalled (L : SlotLayer T E S A) (t : T) (e : E) : Prop :=
  ∀ a, L.receptor t e = some (some a) → L.cbNodes.list (.usedTmpList a) = []

def Sound (taskEvent : T → E) (L : SlotLayer T E S A) : SlotLabel T E S A → Prop
  | .connect e s t mem => ¬ L.LacksTrigger taskEvent e s t mem ∧ L.Fits t e
  | .disconnect e s => L.cbNodes.home s = none ∨ ∃ t, L.Connected s t e
  | .cleanFromTask e t => L.Uncalled t e
  | _ => True

variable [DecidableEq T] [DecidableEq E] [DecidableEq S] [DecidableEq A]

def SoundStep (taskEvent : T → E) (L : SlotLayer T E S A) (l : SlotLabel T E S A)
    (L' : SlotLayer T E S A) : Prop :=
  L.Enabled l ∧ L.Sound taskEvent l ∧ L.step taskEvent l = some L'

end SlotLayer

structure Effect (taskEvent : T → E) (L : SlotLayer T E S A) (l : SlotLabel T E S A)
    (L' : SlotLayer T E S A) : Prop where
  holds : ∃ owner pinner, Holds taskEvent L' owner pinner
  moved : ∀ s, Moved L L' s l
  receptor : ∀ {t e}, e ≠ taskEvent t → L.receptor t e = none →
    (∀ s mem, l ≠ .connect e s t mem) → L'.receptor t e = none
  loop : ∀ {t}, l ≠ .wait t → l ≠ .next t → L'.loop t = L.loop t

section Step
variable {L : SlotLayer T E S A} {taskEvent : T → E} {owner : A → Option (T × E)}
  {pinner : A → Option T} {t : T} {e : E} {s : S} {l : SlotLabel T E S A}
  [DecidableEq T] [DecidableEq E] [DecidableEq S] [DecidableEq A]

theorem Holds.connectEffect (h : Holds taskEvent L owner pinner) {mem : Mallocs A}
    (free : ∀ a, mem.trigger = some a → L.trigger a = none)
    (lacks : ¬ L.LacksTrigger taskEvent e s t mem) (fits : L.Fits t e) :
    ∃ L', L.step taskEvent (.connect e s t mem) = some L' ∧
      Effect taskEvent L (.connect e s t mem) L' := by
  obtain ⟨ret, L', run, outcome⟩ := h.connect free lacks fits
  refine ⟨L', by rw [SlotLayer.step, run]; rfl, ?_⟩
  obtain ⟨-, holds, rfl | rfl⟩ | ⟨-, a, owner', holds, own, nodes, out, loop, owners⟩ := outcome
  · exact ⟨⟨_, _, holds⟩, fun _ => .stays rfl, fun _ no _ => no, fun _ _ => rfl⟩
  · obtain ⟨nodes, -, loop, -⟩ := getEpoll_frame taskEvent L t mem
    refine ⟨⟨_, _, holds⟩, fun x => .stays (by rw [nodes]), fun other no _ => ?_,
      fun _ _ => by rw [loop]⟩
    rw [h.getEpoll_receptor t mem other, no]
  · refine ⟨⟨_, _, holds⟩, fun x => ?_, fun {u f} other no labels => ?_, fun _ _ => by rw [loop]⟩
    · by_cases eq : x = s
      · subst eq
        refine .connected out (by rw [nodes]; exact Function.update_self ..) ?_
        rcases owners with same | ⟨dead, -⟩
        · exact .inl ((h.registered t e a).mpr (same ▸ own))
        · exact .inr dead
      · refine .stays ?_
        rw [nodes]
        exact Function.update_of_ne eq ..
    · by_contra known
      obtain ⟨userdata, eq⟩ := Option.ne_none_iff_exists'.mp known
      cases userdata with
      | none => exact other (holds.bare u f eq)
      | some b =>
        have own' := (holds.registered u f b).mp eq
        have before : owner b ≠ some (u, f) := by
          rw [Ne, ← h.registered, no]
          exact (Option.some_ne_none _).symm
        rcases owners with same | ⟨-, same⟩
        · exact before (same ▸ own')
        · rw [same] at own'
          by_cases at_a : b = a
          · rw [at_a, Function.update_self] at own'
            cases own'
            exact labels s mem rfl
          · rw [Function.update_of_ne at_a] at own'
            exact before own'

theorem Holds.step (h : Holds taskEvent L owner pinner) (enabled : L.Enabled l)
    (sound : L.Sound taskEvent l) :
    ∃ L', L.step taskEvent l = some L' ∧ Effect taskEvent L l L' := by
  cases l with
  | connect e s t mem => exact h.connectEffect enabled sound.1 sound.2
  | disconnect e s =>
    obtain ⟨L', run, ⟨owner', holds⟩, nodes, loop, receptor⟩ := h.disconnect sound
    refine ⟨L', run, ⟨_, _, holds⟩, fun x => ?_, fun _ no _ => receptor _ _ no,
      fun _ _ => by rw [loop]⟩
    rcases nodes with same | gone
    · exact .stays (by rw [same])
    · have home : L'.cbNodes.home x = if x = s then none else L.cbNodes.home x := by
        rw [gone, Placing.delInit_home, Function.update_apply]
      split at home
      · exact .unlinked home
      · exact .stays home
  | cleanFromTask e t =>
    obtain ⟨L', run, ⟨owner', holds⟩, nodes, loop, -, receptor, -⟩ := h.cleanFromTask sound
    refine ⟨L', run, ⟨_, _, holds⟩, fun x => ?_, fun _ no _ => receptor _ _ no,
      fun _ _ => by rw [loop]⟩
    rcases nodes with same | ⟨a, -, gone⟩
    · exact .stays (by rw [same])
    · have home : L'.cbNodes.home x =
          if L.cbNodes.home x = some (.cbHead a) then none else L.cbNodes.home x := by
        rw [gone, h.proper.delAll_eq]
      split at home
      · exact .unlinked home
      · exact .stays home
  | notify e =>
    exact ⟨_, rfl, ⟨_, _, h.events (h.wired.notify e)⟩, fun _ => .stays rfl, fun _ no _ => no,
      fun _ _ => rfl⟩
  | notifyAndReorder e num =>
    exact ⟨_, rfl, ⟨_, _, h.events (h.wired.notifyAndReorder e num)⟩, fun _ => .stays rfl,
      fun _ no _ => no, fun _ _ => rfl⟩
  | clean e =>
    exact ⟨_, rfl, ⟨_, _, h.events (h.wired.clean e)⟩, fun _ => .stays rfl, fun _ no _ => no,
      fun _ _ => rfl⟩
  | enterLoop t mem =>
    obtain ⟨nodes, -, loop, -⟩ := getEpoll_frame taskEvent L t mem
    refine ⟨_, rfl, ⟨_, _, h.getEpoll t mem⟩, fun x => .stays (by rw [nodes]),
      fun other no _ => ?_, fun _ _ => by rw [loop]⟩
    rw [h.getEpoll_receptor t mem other, no]
  | wait t =>
    obtain ⟨L', run, holds, fewer, -⟩ := h.wait enabled.2
    refine ⟨L', run, holds, fun x => (fewer.home x).elim .stays .unlinked,
      fun _ no _ => fewer.receptor _ _ no, fun {u} other _ => fewer.loop u ?_⟩
    exact fun eq => other (by rw [eq])
  | next t =>
    obtain ⟨L', run, ⟨pinner', holds⟩, moved, receptor, loop⟩ := h.next enabled
    refine ⟨L', run, ⟨_, _, holds⟩, moved, fun _ no _ => by rw [receptor, no],
      fun {u} _ other => loop u fun eq => other (by rw [eq])⟩

end Step

/-! Runs. -/

structure Bookkept (taskEvent : T → E) (L : SlotLayer T E S A) : Prop where
  /-- A slot is linked once, and to one trigger. -/
  unique : ∀ {s a b}, s ∈ L.slots a → s ∈ L.slots b → a = b
  nodup : ∀ a, (L.slots a).Nodup
  /-- A trigger is there while it has slots, or a batch refers to it. -/
  allocated : ∀ a, L.trigger a ≠ none ↔ L.slots a ≠ [] ∨ ∃ t, a ∈ L.pinned t
  freed : ∀ a, L.news a = L.frees a + if (L.trigger a).isSome then 1 else 0
  count : ∀ {a g}, L.trigger a = some g → g.connectCnt.toNat = (L.slots a).length
  registered : ∀ {t e a}, L.receptor t e = some (some a) →
    ∃ g, L.trigger a = some g ∧ 0 < g.connectCnt.toNat
  counted : ∀ {a g}, L.trigger a = some g → 0 < g.connectCnt.toNat →
    ∃! p : T × E, L.receptor p.1 p.2 = some (some a)
  bare : ∀ {t e}, L.receptor t e = some none → e = taskEvent t

section Runs
variable {L : SlotLayer T E S A} {taskEvent : T → E} {owner : A → Option (T × E)}
  {pinner : A → Option T} {ls : List (SlotLabel T E S A)}

theorem Holds.bookkept (h : Holds taskEvent L owner pinner) : Bookkept taskEvent L where
  unique := h.slots_unique
  nodup := h.slots_nodup
  allocated a := by
    have live := (h.ok a).live
    have owned := (h.ok a).owned
    have pinned : (∃ t, a ∈ L.pinned t) ↔ pinner a ≠ none := by
      rw [Option.ne_none_iff_exists']
      exact exists_congr fun t => h.pins t a
    rw [pinned, ← Option.isSome_iff_ne_none]
    exact live.trans (or_congr_left owned)
  freed a := (h.ok a).freed
  count trigger := (h.ok _).count _ trigger
  registered {t e a} known := by
    have own := (h.registered t e a).mp known
    obtain ⟨g, trigger⟩ := h.trigger_of_owner own
    refine ⟨g, trigger, ?_⟩
    rw [(h.ok a).count g trigger]
    exact List.length_pos_of_ne_nil ((h.ok a).owned.mp (by simp [own]))
  counted {a g} trigger pos := by
    rw [(h.ok a).count g trigger] at pos
    obtain ⟨⟨t, e⟩, own⟩ := Option.ne_none_iff_exists'.mp
      ((h.ok a).owned.mpr (List.ne_nil_of_length_pos pos))
    refine ⟨(t, e), (h.registered t e a).mpr own, fun p known => ?_⟩
    exact Option.some.inj (((h.registered p.1 p.2 a).mp known).symm.trans own)
  bare := h.bare _ _

variable [DecidableEq T] [DecidableEq E] [DecidableEq S] [DecidableEq A]

theorem SoundStep.effect (h : Holds taskEvent L owner pinner) {l : SlotLabel T E S A}
    {L' : SlotLayer T E S A} (step : L.SoundStep taskEvent l L') : Effect taskEvent L l L' := by
  obtain ⟨enabled, sound, made⟩ := step
  obtain ⟨L₁, made', effect⟩ := h.step enabled sound
  cases made.symm.trans made'
  exact effect

theorem SoundStep.run {L₀ : SlotLayer T E S A} (run : Run (SlotLayer.SoundStep taskEvent) L₀ ls L)
    (start : ∃ owner pinner, Holds taskEvent L₀ owner pinner) :
    ∃ owner pinner, Holds taskEvent L owner pinner := by
  refine run.invariant (I := fun L => ∃ owner pinner, Holds taskEvent L owner pinner) ?_ start
  rintro L l L' ⟨owner, pinner, holds⟩ step
  exact (SoundStep.effect holds step).holds

/-- Every call and every batch leaves the slots, the triggers and the epolls in agreement, and
an event that is reported with an error loses its slots. -/
theorem eventCb_bookkept
    (run : Run (SlotLayer.SoundStep taskEvent) (SlotLayer.init : SlotLayer T E S A) ls L) :
    Bookkept taskEvent L ∧
      (∀ l, L.Enabled l → L.Sound taskEvent l →
        ∃ L', L.step taskEvent l = some L' ∧ Bookkept taskEvent L') ∧
      ∀ t L', L.Enabled (.wait t) → L.step taskEvent (.wait t) = some L' →
        ∀ e, (e, .error) ∈ (L.reports t).1 → L'.receptor t e = none ∧
          ∀ s, L.Connected s t e → L'.cbNodes.home s = none := by
  obtain ⟨owner, pinner, holds⟩ := SoundStep.run run ⟨_, _, holds_init taskEvent⟩
  refine ⟨holds.bookkept, fun l enabled sound => ?_, fun t L' enabled made => ?_⟩
  · obtain ⟨L', made, effect⟩ := holds.step enabled sound
    obtain ⟨_, _, after⟩ := effect.holds
    exact ⟨L', made, after.bookkept⟩
  · obtain ⟨L₁, made', -, -, failed⟩ := holds.wait enabled.2
    cases made.symm.trans made'
    exact failed

end Runs

def oneCall : List (SlotLabel Unit Bool Unit Unit) :=
  [.connect true () () ⟨true, true, true, some ()⟩, .notify true, .wait (), .next (),
    .disconnect true (), .next ()]

theorem oneCall_runs : ∃ L, Run (SlotLayer.SoundStep fun _ => false)
    (SlotLayer.init : SlotLayer Unit Bool Unit Unit) oneCall L ∧ L.trigger () = none := by
  refine ⟨_, .cons ⟨fun _ _ => rfl, ⟨fun lacks => ?_, fun a eq => ?_⟩, rfl⟩ <|
    .cons ⟨trivial, trivial, rfl⟩ <| .cons ⟨⟨rfl, rfl⟩, trivial, rfl⟩ <|
    .cons ⟨?_, trivial, rfl⟩ <| .cons ⟨trivial, .inr ⟨(), (), rfl, ?_⟩, rfl⟩ <|
    .cons ⟨?_, trivial, rfl⟩ (.nil _), rfl⟩
  · cases lacks.2.2.2.2.2
  · cases eq
  · exact Option.some_ne_none _
  · exact List.mem_singleton_self ()
  · exact Option.some_ne_none _

theorem eventCb_bookkept_one : ∃ L : SlotLayer Unit Bool Unit Unit,
    L.trigger () = none ∧ Bookkept (fun _ => false) L := by
  obtain ⟨L, run, freed⟩ := oneCall_runs
  exact ⟨L, freed, (eventCb_bookkept run).1⟩

/-! `connect_cnt` has 31 bits. -/

/-- The slots `0`, `1` and so on are connected to one event. -/
def connectAll (n : Nat) : List (SlotLabel Unit Bool Nat Nat) :=
  (List.range n).map fun s => .connect true s () ⟨true, true, true, some s⟩

/-- `n` slots are connected. -/
structure Filled (L : SlotLayer Unit Bool Nat Nat) (n : Nat) : Prop where
  epoll : L.hasEpoll () = true
  receptor : L.receptor () true = some (some 0)
  trigger : L.trigger 0 = some ⟨BitVec.ofNat 31 n, false⟩
  free : ∀ a ≠ 0, L.trigger a = none
  length : (L.slots 0).length = n
  out : ∀ s ≥ n, L.cbNodes.home s = none

theorem Filled.connect {L : SlotLayer Unit Bool Nat Nat} {n : Nat} (h : Filled L n)
    (mem : Mallocs Nat) : ∃ L', L.step (fun _ => false) (.connect true n () mem) = some L' ∧
      Filled L' (n + 1) := by
  refine ⟨{ L.setTrigger 0 (some ⟨BitVec.ofNat 31 n + 1, false⟩) with
    cbNodes := L.cbNodes.add n (.cbHead 0), slotTask := Function.update L.slotTask n (some ()) },
    ?_, h.epoll, h.receptor, ?_, fun a ne => ?_, ?_, fun s ge => ?_⟩
  · simp [SlotLayer.step, SlotLayer.ehEventCbConnect, h.out n le_rfl,
      SlotLayer.taskGetEpollTryNew, h.epoll, SlotLayer.ehEpollAddEventAdvanced, h.receptor,
      SlotLayer.triggerConnect, h.trigger, SlotLayer.setTrigger, ehRetExists, ehRetOk]
  · rw [BitVec.ofNat_add]
    exact Function.update_self 0 _ L.trigger
  · exact (Function.update_of_ne ne _ L.trigger).trans (h.free a ne)
  · change ((L.cbNodes.add n (.cbHead 0)).list (.cbHead 0) ++
      (L.cbNodes.add n (.cbHead 0)).list (.usedTmpList 0)).length = n + 1
    rw [add_cbHead, if_pos rfl, add_usedTmpList, List.cons_append, List.length_cons]
    exact congrArg (· + 1) h.length
  · exact (Function.update_of_ne (Nat.ne_of_gt ge) ..).trans (h.out s (Nat.le_of_succ_le ge))

theorem connectAll_runs (n : Nat) : ∃ L,
    Run (fun L l L' => L.Enabled l ∧ L.step (fun _ => false) l = some L')
      (SlotLayer.init : SlotLayer Unit Bool Nat Nat) (connectAll (n + 1)) L ∧ Filled L (n + 1) := by
  induction n with
  | zero =>
    refine ⟨_, .single ⟨fun _ _ => rfl, rfl⟩, rfl, rfl, rfl, fun a ne => ?_, rfl, fun s ge => ?_⟩
    · cases a with
      | zero => exact absurd rfl ne
      | succ a => rfl
    · cases s with
      | zero => cases ge
      | succ s => rfl
  | succ n ih =>
    obtain ⟨L, run, filled⟩ := ih
    obtain ⟨L', step, filled'⟩ := filled.connect ⟨true, true, true, some (n + 1)⟩
    refine ⟨L', ?_, filled'⟩
    rw [connectAll, List.range_succ, List.map_append]
    refine .snoc run ⟨fun a eq => ?_, step⟩
    cases eq
    exact filled.free _ (Nat.succ_ne_zero n)

/-- With 2^31 slots the count is zero. -/
theorem connectCnt_wraps : ∃ L,
    Run (fun L l L' => L.Enabled l ∧ L.step (fun _ => false) l = some L')
      (SlotLayer.init : SlotLayer Unit Bool Nat Nat) (connectAll (2 ^ 31)) L ∧
    L.receptor () true = some (some 0) ∧ L.trigger 0 = some ⟨0, false⟩ ∧
    (L.slots 0).length = 2 ^ 31 := by
  obtain ⟨L, run, filled⟩ := connectAll_runs (2 ^ 31 - 1)
  exact ⟨L, run, filled.receptor, filled.trigger, filled.length⟩

end EventHub.EventCb
