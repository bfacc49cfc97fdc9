import EventHub.EventCb.Triggers

/-! What each function does to the bookkeeping of the trigger that it works on. -/

namespace EventHub.EventCb
open Library Kernel Event

variable {T E S A : Type}

/-! One trigger. -/

theorem View.erase_length [DecidableEq S] {v : View S} {s : S} (nodup : v.slots.Nodup)
    (mem : s ∈ v.slots) : (v.cb.erase s ++ v.used.erase s).length = v.slots.length - 1 := by
  rw [List.length_append, View.slots, List.length_append]
  rcases List.mem_append.mp mem with front | behind
  · have out : s ∉ v.used := fun behind =>
      (List.nodup_append.mp nodup).2.2 s front s behind rfl
    have pos := List.length_pos_of_mem front
    rw [List.length_erase_of_mem front, List.erase_of_not_mem out]
    omega
  · have out : s ∉ v.cb := fun front =>
      (List.nodup_append.mp nodup).2.2 s front s behind rfl
    have pos := List.length_pos_of_mem behind
    rw [List.length_erase_of_mem behind, List.erase_of_not_mem out]
    omega

namespace TriggerOk
variable {v : View S} {at_ : T → Prop} {task : S → Option T} {o : Option (T × E)} {p : Option T}
  {g : Trigger} {t : T} {e : E} {s : S}

theorem fresh (used : v.used = [])
    (freed : v.news = v.frees) (own : task s = some t) :
    TriggerOk { v with trigger := some ⟨1, false⟩, cb := [s], news := v.news + 1 } at_ task
      (some (t, e)) none where
  live := by simp
  forced g eq := by
    cases eq
    simp
  count g eq := by
    cases eq
    simp [View.slots, used]
  owned := by simp [View.slots]
  used some := absurd used some
  task t e eq s mem := by
    cases eq
    rw [View.slots, used, List.append_nil, List.mem_singleton] at mem
    rw [mem, own]
  same t e u _ eq := by cases eq
  freed := by simp [freed]

theorem of_view (h : TriggerOk v at_ task o p) {w : View S} (eq : w = v) :
    TriggerOk w at_ task o p := eq ▸ h

variable (h : TriggerOk v at_ task o p) (at_g : v.trigger = some g)
include h at_g

theorem count_eq : g.connectCnt.toNat = v.slots.length := h.count g at_g

theorem attach (own : o = some (t, e)) (room : v.slots.length + 1 < 2 ^ 31)
    {task' : S → Option T} (at_s : task' s = some t) (same : ∀ x ∈ v.slots, task' x = task x) :
    TriggerOk { v with trigger := some { g with connectCnt := g.connectCnt + 1 }, cb := s :: v.cb }
      at_ task' o p where
  live := by simp [own]
  forced g' eq := by
    cases eq
    exact h.forced g at_g
  count g' eq := by
    cases eq
    have count := h.count_eq at_g
    rw [← count] at room
    simp only [View.slots, List.cons_append, List.length_cons] at count ⊢
    rw [connectCnt_add room, count]
  owned := by simp [View.slots, own]
  used := h.used
  task u f own' x mem := by
    cases own.symm.trans own'
    rcases List.mem_cons.mp mem with rfl | mem
    · exact at_s
    · rw [same x mem]
      exact h.task t e own x mem
  same := h.same
  freed := by
    have freed := h.freed
    rw [at_g] at freed
    exact freed

theorem detach [DecidableEq S] (nodup : v.slots.Nodup) (mem : s ∈ v.slots)
    (rest : v.cb.erase s ++ v.used.erase s ≠ []) :
    TriggerOk { v with
      trigger := some { g with connectCnt := g.connectCnt - 1 }
      cb := v.cb.erase s
      used := v.used.erase s } at_ task o p := by
  have sub : ∀ x ∈ v.cb.erase s ++ v.used.erase s, x ∈ v.slots := by
    intro x mem'
    rcases List.mem_append.mp mem' with front | behind
    · exact List.mem_append_left _ (List.mem_of_mem_erase front)
    · exact List.mem_append_right _ (List.mem_of_mem_erase behind)
  have some : o ≠ none := h.owned.mpr (List.ne_nil_of_mem mem)
  refine ⟨?_, fun g' eq => ?_, fun g' eq => ?_, ⟨fun _ => rest, fun _ => some⟩, fun used => ?_,
    fun t e own x mem' => h.task t e own x (sub x mem'), h.same, ?_⟩
  · simp [some]
  · cases eq
    exact h.forced g at_g
  · cases eq
    have count := h.count_eq at_g
    have pos : 0 < v.slots.length := List.length_pos_of_mem mem
    dsimp only [View.slots]
    rw [connectCnt_sub (by omega), View.erase_length nodup mem, count]
  · refine h.used fun empty => used ?_
    dsimp only
    rw [empty, List.erase_nil]
  · have freed := h.freed
    rw [at_g] at freed
    exact freed

theorem dropped :
    TriggerOk { v with
      trigger := if g.forcedRef then some { g with connectCnt := 0 } else none
      cb := []
      used := []
      frees := if g.forcedRef then v.frees else v.frees + 1 } at_ task
        (none : Option (T × E)) p := by
  have forced := h.forced g at_g
  have freed := h.freed
  rw [at_g] at freed
  refine ⟨?_, fun g' eq => ?_, fun g' eq => ?_, ⟨fun no => absurd rfl no, fun no => absurd rfl no⟩,
    fun no => absurd rfl no, fun _ _ own => (by cases own), fun _ _ _ own => (by cases own), ?_⟩
  · cases flag : g.forcedRef <;> simp [flag] at forced ⊢ <;> simp [forced]
  · dsimp only at eq
    split at eq
    · cases eq
      exact forced
    · cases eq
  · dsimp only at eq
    split at eq
    · cases eq
      rfl
    · cases eq
  · cases flag : g.forcedRef <;> simpa using freed

theorem pin (own : o = some (t, e)) (free : p = none) {at' : T → Prop} :
    TriggerOk { v with trigger := some { g with forcedRef := true } } at' task o (some t) where
  live := by simp
  forced g' eq := by
    cases eq
    simp
  count g' eq := by
    cases eq
    exact h.count g at_g
  owned := h.owned
  used some := by
    obtain ⟨u, pinned, -⟩ := h.used some
    rw [free] at pinned
    cases pinned
  task := h.task
  same u f w own' eq := by
    cases own.symm.trans own'
    cases eq
    rfl
  freed := by
    have freed := h.freed
    rw [at_g] at freed
    exact freed

omit at_g in
theorem call {l : List S} (first : v.cb = s :: l) (pinned : p = some t) (here : at_ t) :
    TriggerOk { v with cb := l, used := v.used ++ [s] } at_ task o p := by
  have perm : (l ++ (v.used ++ [s])).Perm v.slots := by
    rw [View.slots, first, ← List.append_assoc]
    exact List.perm_append_singleton s (l ++ v.used)
  refine ⟨h.live, h.forced, fun g eq => ?_, ?_, fun _ => ⟨t, pinned, here⟩,
    fun u f own x mem => h.task u f own x (perm.mem_iff.mp mem), h.same, h.freed⟩
  · exact (h.count g eq).trans perm.length_eq.symm
  · have before : v.slots ≠ [] := by simp [View.slots, first]
    have after : l ++ (v.used ++ [s]) ≠ [] := by simp
    exact ⟨fun _ => after, fun _ => h.owned.mpr before⟩

theorem finish (none_left : v.cb = []) {at' : T → Prop} :
    TriggerOk { v with
      trigger := if g.connectCnt = 0 then none else some { g with forcedRef := false }
      cb := v.used
      used := []
      frees := if g.connectCnt = 0 then v.frees + 1 else v.frees } at' task o
        none := by
  have count := h.count_eq at_g
  have owned := h.owned
  have freed := h.freed
  rw [at_g] at freed
  have slots : v.slots = v.used := by rw [View.slots, none_left, List.nil_append]
  rw [slots] at count owned
  have empty : g.connectCnt = 0 ↔ o = none := by
    rw [connectCnt_eq_zero, count, List.length_eq_zero_iff]
    exact not_iff_not.mp owned.symm
  refine ⟨?_, fun g' eq => ?_, fun g' eq => ?_, ?_, fun no => absurd rfl no, ?_,
    fun _ _ _ _ eq => (by cases eq), ?_⟩
  · dsimp only
    by_cases zero : g.connectCnt = 0
    · rw [if_pos zero]
      simp [empty.mp zero]
    · rw [if_neg zero]
      simp [mt empty.mpr zero]
  · dsimp only at eq
    split at eq
    · cases eq
    · cases eq
      simp
  · dsimp only at eq
    split at eq
    · cases eq
    · cases eq
      simpa [View.slots] using count
  · simpa [View.slots] using owned
  · intro u f own x mem
    rw [View.slots, List.append_nil] at mem
    exact h.task u f own x (slots ▸ mem)
  · dsimp only
    by_cases zero : g.connectCnt = 0
    · rw [if_pos zero, if_pos zero, freed]
      rfl
    · rw [if_neg zero, if_neg zero, freed]
      rfl

end TriggerOk

/-! One trigger among the others. -/

variable {L L' : SlotLayer T E S A} {taskEvent : T → E} {owner : A → Option (T × E)}
  {pinner : A → Option T} {a : A} {t : T} {e : E} {s : S} {o : Option (T × E)} {p : Option T}
  [DecidableEq A]

/-- The layer after `eh_free`. -/
def SlotLayer.freed (L : SlotLayer T E S A) (a : A) : SlotLayer T E S A :=
  { L.setTrigger a none with frees := Function.update L.frees a (L.frees a + 1) }

theorem ehFree_eq {g : Trigger} (trigger : L.trigger a = some g) :
    L.ehFree a = some (L.freed a) := by
  rw [SlotLayer.ehFree, trigger]
  rfl

theorem freed_view (L : SlotLayer T E S A) (a b : A) :
    (L.freed a).view b =
      if b = a then { L.view a with trigger := none, frees := L.frees a + 1 } else L.view b := by
  by_cases eq : b = a
  · simp [SlotLayer.view, SlotLayer.freed, SlotLayer.setTrigger, eq]
  · simp [SlotLayer.view, SlotLayer.freed, SlotLayer.setTrigger, eq]

theorem Holds.change (h : Holds taskEvent L owner pinner) (proper : L'.cbNodes.Proper)
    (ok : TriggerOk (L'.view a) (fun t => L'.dispatching t = some a) L'.slotTask o p)
    (views : ∀ b ≠ a, L'.view b = L.view b)
    (stays : ∀ b ≠ a, ∀ t, L.dispatching t = some b → L'.dispatching t = some b)
    (tasks : ∀ b ≠ a, ∀ s ∈ L.slots b, L'.slotTask s = L.slotTask s)
    (registered : ∀ t e b,
      L'.receptor t e = some (some b) ↔ Function.update owner a o b = some (t, e))
    (bare : ∀ t e, L'.receptor t e = some none → e = taskEvent t)
    (other : ∀ t e, o = some (t, e) → e ≠ taskEvent t)
    (pins : ∀ t b, b ∈ L'.pinned t ↔ Function.update pinner a p b = some t)
    (pins_nodup : ∀ t, (L'.pinned t).Nodup)
    (epoll : ∀ t e, L'.receptor t e ≠ none → L'.hasEpoll t = true)
    (wired : Wired L'.events fun t e => L'.receptor t e ≠ none) :
    Holds taskEvent L' (Function.update owner a o) (Function.update pinner a p) where
  proper := proper
  ok b := by
    by_cases eq : b = a
    · rw [eq, Function.update_self, Function.update_self]
      exact ok
    · rw [Function.update_of_ne eq, Function.update_of_ne eq, views b eq]
      exact (h.ok b).congr (stays b eq) (tasks b eq)
  registered := registered
  bare := bare
  other b t e own := by
    by_cases eq : b = a
    · rw [eq, Function.update_self] at own
      exact other t e own
    · rw [Function.update_of_ne eq] at own
      exact h.other b t e own
  pins := pins
  pins_nodup := pins_nodup
  epoll := epoll
  wired := wired

theorem Holds.keep (h : Holds taskEvent L owner pinner) (proper : L'.cbNodes.Proper)
    (ok : TriggerOk (L'.view a) (fun t => L'.dispatching t = some a) L'.slotTask (owner a)
      (pinner a))
    (views : ∀ b ≠ a, L'.view b = L.view b)
    (tasks : ∀ b ≠ a, ∀ s ∈ L.slots b, L'.slotTask s = L.slotTask s)
    (receptor : L'.receptor = L.receptor) (loop : L'.loop = L.loop)
    (epoll : L'.hasEpoll = L.hasEpoll) (events : L'.events = L.events) :
    Holds taskEvent L' owner pinner := by
  have pinned : ∀ t, L'.pinned t = L.pinned t := fun t => by
    rw [SlotLayer.pinned, SlotLayer.pinned, loop]
  have dispatching : ∀ t, L'.dispatching t = L.dispatching t := fun t => by
    rw [SlotLayer.dispatching, SlotLayer.dispatching, loop]
  have changed := h.change proper ok views (fun b _ t at_ => (dispatching t).trans at_) tasks
    (fun t e b => ?_) (receptor ▸ h.bare) (h.other a) (fun t b => ?_) (fun t => ?_)
    (by rw [receptor, epoll]; exact h.epoll) (by rw [receptor, events]; exact h.wired)
  · rwa [Function.update_eq_self, Function.update_eq_self] at changed
  · rw [receptor, Function.update_eq_self]
    exact h.registered t e b
  · rw [pinned, Function.update_eq_self]
    exact h.pins t b
  · rw [pinned]
    exact h.pins_nodup t

variable [DecidableEq S]

@[simp] theorem add_cbHead (c : Placing (ListHead A) S) (s : S) (a b : A) :
    (c.add s (.cbHead a)).list (.cbHead b) =
      if b = a then s :: c.list (.cbHead a) else c.list (.cbHead b) := by
  simp [Placing.add, Function.update_apply]

@[simp] theorem add_usedTmpList (c : Placing (ListHead A) S) (s : S) (a b : A) :
    (c.add s (.cbHead a)).list (.usedTmpList b) = c.list (.usedTmpList b) := by
  simp [Placing.add]

omit [DecidableEq A] [DecidableEq S] in
theorem Holds.not_linked (h : Holds taskEvent L owner pinner) (out : L.cbNodes.home s = none)
    (b : A) : s ∉ L.slots b := by
  rw [h.mem_slots, out]
  simp

theorem Holds.attach (h : Holds taskEvent L owner pinner) (own : owner a = some (t, e))
    (out : L.cbNodes.home s = none) (room : (L.slots a).length + 1 < 2 ^ 31) :
    ∃ L₁, L.triggerConnect a s = some L₁ ∧
      Holds taskEvent { L₁ with slotTask := Function.update L₁.slotTask s (some t) }
        owner pinner := by
  obtain ⟨g, trigger⟩ := h.trigger_of_owner own
  have elsewhere : ∀ b, ∀ x ∈ L.slots b,
      Function.update L.slotTask s (some t) x = L.slotTask x := by
    intro b x mem
    have ne : x ≠ s := fun eq => h.not_linked out b (eq ▸ mem)
    exact Function.update_of_ne ne ..
  refine ⟨_, by rw [SlotLayer.triggerConnect, trigger]; rfl, ?_⟩
  refine h.keep (a := a) (h.proper.add out) ?_ (fun b ne => ?_) (fun b _ => elsewhere b) rfl rfl
    rfl rfl
  · have at_s : Function.update L.slotTask s (some t) s = some t := Function.update_self ..
    exact ((h.ok a).attach trigger own room at_s (elsewhere a)).of_view
      (by simp [SlotLayer.view, SlotLayer.setTrigger])
  · simp [SlotLayer.view, SlotLayer.setTrigger, ne]

variable [DecidableEq T] [DecidableEq E]

theorem Holds.attachNew (h : Holds taskEvent L owner pinner) (free : L.trigger a = none)
    (unknown : L.receptor t e = none) (ne : e ≠ taskEvent t) (epoll : L.hasEpoll t = true)
    (out : L.cbNodes.home s = none) :
    ∃ L₁, (((L.newReceptor t e).triggerWeakRefNew a).setReceptor t e
        (some (some a))).triggerConnect a s = some L₁ ∧
      Holds taskEvent { L₁ with slotTask := Function.update L₁.slotTask s (some t) }
        (Function.update owner a (some (t, e))) pinner := by
  obtain ⟨unowned, unpinned, empty⟩ := h.free_address free
  rw [SlotLayer.slots, List.append_eq_nil_iff] at empty
  have at_trigger : (((L.newReceptor t e).triggerWeakRefNew a).setReceptor t e
      (some (some a))).trigger a = some ⟨0, false⟩ := Function.update_self ..
  refine ⟨_, by rw [SlotLayer.triggerConnect, at_trigger]; rfl, ?_⟩
  have same : L.cbNodes.initHead (.cbHead a) = L.cbNodes := Placing.initHead_eq empty.1
  have receptor : ∀ u f, (((L.newReceptor t e).triggerWeakRefNew a).setReceptor t e
      (some (some a))).receptor u f =
        if u = t ∧ f = e then some (some a) else L.receptor u f := by
    intro u f
    rw [setReceptor_receptor]
    refine ite_congr rfl (fun _ => rfl) fun other => ?_
    change (L.setReceptor t e (some none)).receptor u f = _
    rw [setReceptor_receptor, if_neg other]
  have elsewhere : ∀ b, ∀ x ∈ L.slots b,
      Function.update L.slotTask s (some t) x = L.slotTask x := by
    intro b x mem
    have ne : x ≠ s := fun eq => h.not_linked out b (eq ▸ mem)
    exact Function.update_of_ne ne ..
  have freed : L.news a = L.frees a := by
    have freed := (h.ok a).freed
    simpa [SlotLayer.view, free] using freed
  have at_s : Function.update L.slotTask s (some t) s = some t := Function.update_self ..
  rw [← Function.update_eq_self a pinner]
  refine h.change ?_ ?_ (fun b ne => ?_) (fun _ _ _ at_ => at_) (fun b _ => elsewhere b)
    (fun u f b => ?_) (fun u f at_ => ?_) (fun u f eq => ?_) (fun u b => ?_) h.pins_nodup
    (fun u f known => ?_) ?_
  · change ((L.cbNodes.initHead (.cbHead a)).add s (.cbHead a)).Proper
    rw [same]
    exact h.proper.add out
  · rw [unpinned]
    refine (TriggerOk.fresh (v := L.view a) empty.2 freed at_s).of_view ?_
    simp [SlotLayer.view, SlotLayer.setReceptor, SlotLayer.triggerWeakRefNew, SlotLayer.setTrigger,
      SlotLayer.newReceptor, same, empty.1]
  · simp [SlotLayer.view, SlotLayer.setReceptor, SlotLayer.triggerWeakRefNew, SlotLayer.setTrigger,
      SlotLayer.newReceptor, same, ne]
  · change (((L.newReceptor t e).triggerWeakRefNew a).setReceptor t e
      (some (some a))).receptor u f = _ ↔ _
    rw [receptor]
    by_cases here : u = t ∧ f = e
    · obtain ⟨rfl, rfl⟩ := here
      by_cases eq : b = a
      · simp [eq]
      · have unowned := mt (h.registered u f b).mpr (by simp [unknown])
        simp [eq, Ne.symm eq, unowned]
    · rw [if_neg here, h.registered]
      by_cases eq : b = a
      · subst eq
        have other : ¬ (t = u ∧ e = f) := fun both => here ⟨both.1.symm, both.2.symm⟩
        simp [unowned, other]
      · rw [Function.update_of_ne eq]
  · change (((L.newReceptor t e).triggerWeakRefNew a).setReceptor t e
      (some (some a))).receptor u f = _ at at_
    rw [receptor] at at_
    split at at_
    · cases at_
    · exact h.bare u f at_
  · cases eq
    exact ne
  · rw [Function.update_eq_self]
    exact h.pins u b
  · change (((L.newReceptor t e).triggerWeakRefNew a).setReceptor t e
      (some (some a))).receptor u f ≠ none at known
    rw [receptor] at known
    split at known
    · next here => exact here.1 ▸ epoll
    · exact h.epoll u f known
  · refine h.wired.add (not_not.mpr unknown) ?_ fun u f known => ?_
    · change (((L.newReceptor t e).triggerWeakRefNew a).setReceptor t e
        (some (some a))).receptor t e ≠ none
      rw [receptor, if_pos ⟨rfl, rfl⟩]
      exact Option.some_ne_none _
    · change (((L.newReceptor t e).triggerWeakRefNew a).setReceptor t e
        (some (some a))).receptor u f ≠ none
      rw [receptor]
      split
      · exact Option.some_ne_none _
      · exact known

omit [DecidableEq S] in
theorem Holds.forget (h : Holds taskEvent L owner pinner) (own : owner a = some (t, e))
    {L₁ : SlotLayer T E S A} (proper : L₁.cbNodes.Proper)
    (ok : TriggerOk (L₁.view a) (fun t => L.dispatching t = some a) L.slotTask
      (none : Option (T × E)) (pinner a))
    (views : ∀ b ≠ a, L₁.view b = L.view b) (receptor : L₁.receptor = L.receptor)
    (loop : L₁.loop = L.loop) (epoll : L₁.hasEpoll = L.hasEpoll) (events : L₁.events = L.events)
    (slotTask : L₁.slotTask = L.slotTask) :
    Holds taskEvent (L₁.ehEpollDelEvent t e) (Function.update owner a none) pinner := by
  have dispatching : (L₁.ehEpollDelEvent t e).dispatching = L.dispatching := by
    funext u
    rw [SlotLayer.dispatching, SlotLayer.dispatching, delEvent_loop, loop]
  have pinned : (L₁.ehEpollDelEvent t e).pinned = L.pinned := by
    funext u
    rw [SlotLayer.pinned, SlotLayer.pinned, delEvent_loop, loop]
  rw [← Function.update_eq_self a pinner]
  refine h.change ?_ ?_ (fun b ne => ?_) (fun b _ u at_ => ?_) (fun b _ x _ => ?_)
    (fun u f b => ?_) (fun u f at_ => ?_) (fun u f eq => ?_) (fun u b => ?_) (fun u => ?_)
    (fun u f known => ?_) ?_
  · rw [delEvent_cbNodes]
    exact proper
  · rw [delEvent_view, dispatching, delEvent_slotTask, slotTask]
    exact ok
  · rw [delEvent_view, views b ne]
  · rw [dispatching]
    exact at_
  · rw [delEvent_slotTask, slotTask]
  · rw [delEvent_receptor, receptor]
    by_cases here : u = t ∧ f = e
    · obtain ⟨rfl, rfl⟩ := here
      by_cases eq : b = a
      · simp [eq]
      · have other : owner b ≠ some (u, f) := by
          rw [Ne, ← h.registered, (h.registered u f a).mpr own]
          simpa using Ne.symm eq
        simp [eq, other]
    · rw [if_neg here, h.registered]
      by_cases eq : b = a
      · rw [eq, own, Function.update_self]
        simpa [eq_comm] using here
      · rw [Function.update_of_ne eq]
  · rw [delEvent_receptor, receptor] at at_
    split at at_
    · cases at_
    · exact h.bare u f at_
  · cases eq
  · rw [pinned, Function.update_eq_self]
    exact h.pins u b
  · rw [pinned]
    exact h.pins_nodup u
  · rw [delEvent_receptor, receptor] at known
    rw [delEvent_hasEpoll, epoll]
    split at known
    · exact absurd rfl known
    · exact h.epoll u f known
  · exact delEvent_wired (events ▸ h.wired) (fun u f => by rw [receptor]) t e

theorem Holds.detach (h : Holds taskEvent L owner pinner) (own : owner a = some (t, e))
    (mem : s ∈ L.slots a) :
    ∃ left L₁, L.triggerDisconnect a s = some (left, L₁) ∧
      (left ≠ 0 → Holds taskEvent L₁ owner pinner) ∧
      (left = 0 → Holds taskEvent (L₁.ehEpollDelEvent t e) (Function.update owner a none)
        pinner) := by
  obtain ⟨g, trigger⟩ := h.trigger_of_owner own
  have count : g.connectCnt.toNat = (L.view a).slots.length := (h.ok a).count g trigger
  have pos : 0 < (L.view a).slots.length := List.length_pos_of_mem mem
  have nodup : (L.view a).slots.Nodup := h.slots_nodup a
  have left := View.erase_length nodup mem
  have elsewhere : ∀ b ≠ a, (L.cbNodes.list (.cbHead b)).erase s = L.cbNodes.list (.cbHead b) ∧
      (L.cbNodes.list (.usedTmpList b)).erase s = L.cbNodes.list (.usedTmpList b) := by
    intro b ne
    have out : s ∉ L.slots b := fun mem' => ne (h.slots_unique mem' mem)
    rw [SlotLayer.slots, List.mem_append, not_or] at out
    exact ⟨List.erase_of_not_mem out.1, List.erase_of_not_mem out.2⟩
  obtain ⟨L₀, eq⟩ : ∃ L₀, L₀ = { L.setTrigger a (some { g with connectCnt := g.connectCnt - 1 }) with
    cbNodes := L.cbNodes.delInit s } := ⟨_, rfl⟩
  have run : L.triggerDisconnect a s = if g.connectCnt - 1 = 0 ∧ g.forcedRef = false
      then some (g.connectCnt - 1, L₀.freed a) else some (g.connectCnt - 1, L₀) := by
    have trigger' : L₀.trigger a = some { g with connectCnt := g.connectCnt - 1 } := by
      rw [eq]
      exact Function.update_self ..
    rw [SlotLayer.triggerDisconnect, trigger]
    simp only [Option.bind_eq_bind, Option.bind_some, ← eq, ehFree_eq trigger', Option.pure_def]
  have proper : L₀.cbNodes.Proper := by
    rw [eq]
    exact h.proper.delInit s
  have views : ∀ b ≠ a, L₀.view b = L.view b := by
    intro b ne
    rw [eq]
    simp [SlotLayer.view, SlotLayer.setTrigger, h.proper.delInit_list, ne, elsewhere b ne]
  have at_a : L₀.view a = { L.view a with
      trigger := some { g with connectCnt := g.connectCnt - 1 }
      cb := (L.view a).cb.erase s
      used := (L.view a).used.erase s } := by
    rw [eq]
    simp [SlotLayer.view, SlotLayer.setTrigger, h.proper.delInit_list]
  by_cases zero : g.connectCnt - 1 = 0
  · have empty : (L.view a).cb.erase s ++ (L.view a).used.erase s = [] := by
      rw [connectCnt_eq_zero, connectCnt_sub (by omega), count, ← left] at zero
      exact List.eq_nil_of_length_eq_zero zero
    rw [List.append_eq_nil_iff] at empty
    have dropped := (h.ok a).dropped trigger
    cases flag : g.forcedRef with
    | true =>
      refine ⟨_, L₀, by rw [run, if_neg (by simp [flag])], fun no => absurd zero no, fun _ => ?_⟩
      refine h.forget own proper ?_ views (by rw [eq]; rfl) (by rw [eq]; rfl) (by rw [eq]; rfl)
        (by rw [eq]; rfl) (by rw [eq]; rfl)
      exact dropped.of_view (by rw [at_a, zero, empty.1, empty.2]; simp [flag])
    | false =>
      refine ⟨_, _, by rw [run, if_pos ⟨zero, flag⟩], fun no => absurd zero no, fun _ => ?_⟩
      refine h.forget own proper ?_ (fun b ne => ?_) (by rw [eq]; rfl) (by rw [eq]; rfl)
        (by rw [eq]; rfl) (by rw [eq]; rfl) (by rw [eq]; rfl)
      · have frees : L₀.frees a = (L.view a).frees := by rw [eq]; rfl
        refine dropped.of_view ?_
        rw [freed_view, if_pos rfl, at_a, empty.1, empty.2, frees]
        simp [flag]
      · rw [freed_view, if_neg ne, views b ne]
  · refine ⟨_, L₀, by rw [run, if_neg fun both => zero both.1], fun _ => ?_, fun yes =>
      absurd yes zero⟩
    refine h.keep proper ?_ views (fun b _ x _ => by rw [eq]; rfl) (by rw [eq]; rfl)
      (by rw [eq]; rfl) (by rw [eq]; rfl) (by rw [eq]; rfl)
    have rest : (L.view a).cb.erase s ++ (L.view a).used.erase s ≠ [] := by
      intro empty
      rw [empty, List.length_nil] at left
      refine zero (connectCnt_eq_zero.mpr ?_)
      rw [connectCnt_sub (by omega), count, left]
    rw [at_a, eq]
    exact (h.ok a).detach trigger nodup mem rest

omit [DecidableEq T] [DecidableEq E] in
theorem triggerClean_eq {g : Trigger} (trigger : L.trigger a = some g) :
    ∃ L₀ : SlotLayer T E S A,
      L₀ = { L.setTrigger a (some { g with connectCnt := 0 }) with
        cbNodes := L.cbNodes.delAll (.cbHead a) } ∧
      L.triggerClean a = some (if g.forcedRef then L₀ else L₀.freed a) := by
  obtain ⟨L₀, eq⟩ : ∃ L₀, L₀ = { L.setTrigger a (some { g with connectCnt := 0 }) with
    cbNodes := L.cbNodes.delAll (.cbHead a) } := ⟨_, rfl⟩
  have at_a : L₀.trigger a = some { g with connectCnt := 0 } := by
    rw [eq]
    exact Function.update_self ..
  refine ⟨L₀, eq, ?_⟩
  rw [SlotLayer.triggerClean, trigger]
  simp only [Option.bind_eq_bind, Option.bind_some, ← eq, ehFree_eq at_a]
  cases g.forcedRef <;> rfl

theorem Holds.drop (h : Holds taskEvent L owner pinner) (own : owner a = some (t, e))
    (idle : L.cbNodes.list (.usedTmpList a) = []) :
    ∃ L₁, L.triggerClean a = some L₁ ∧
      Holds taskEvent (L₁.ehEpollDelEvent t e) (Function.update owner a none) pinner ∧
      L₁.cbNodes = L.cbNodes.delAll (.cbHead a) ∧ L₁.receptor = L.receptor ∧
      L₁.loop = L.loop := by
  obtain ⟨g, trigger⟩ := h.trigger_of_owner own
  obtain ⟨L₀, eq, run⟩ := triggerClean_eq trigger
  have list : ∀ j, j ≠ .cbHead a → L₀.cbNodes.list j = L.cbNodes.list j := by
    intro j ne
    rw [eq]
    dsimp only
    rw [h.proper.delAll_eq]
    exact Function.update_of_ne ne ..
  have at_a : L₀.view a =
      { L.view a with trigger := some { g with connectCnt := 0 }, cb := [], used := [] } := by
    have used := (list (.usedTmpList a) (by simp)).trans idle
    have cb : L₀.cbNodes.list (.cbHead a) = [] := by
      rw [eq]
      dsimp only
      rw [h.proper.delAll_eq]
      exact Function.update_self ..
    rw [SlotLayer.view, used, cb, eq]
    simp [SlotLayer.view, SlotLayer.setTrigger]
  have views : ∀ b ≠ a, L₀.view b = L.view b := by
    intro b ne
    rw [SlotLayer.view, list _ (by simpa using ne), list _ (by simp), eq]
    simp [SlotLayer.view, SlotLayer.setTrigger, ne]
  have dropped := (h.ok a).dropped trigger
  have proper : L₀.cbNodes.Proper := by
    rw [eq]
    exact h.proper.delAll _
  refine ⟨_, run, ?_, by rw [eq]; split <;> rfl, by rw [eq]; split <;> rfl,
    by rw [eq]; split <;> rfl⟩
  cases flag : g.forcedRef with
  | true =>
    refine h.forget own proper ?_ views (by rw [eq]; rfl) (by rw [eq]; rfl) (by rw [eq]; rfl)
      (by rw [eq]; rfl) (by rw [eq]; rfl)
    exact dropped.of_view (by simp [flag, at_a])
  | false =>
    have frees : L₀.frees a = (L.view a).frees := by rw [eq]; rfl
    refine h.forget own proper ?_ (fun b ne => ?_) (by rw [eq]; rfl) (by rw [eq]; rfl)
      (by rw [eq]; rfl) (by rw [eq]; rfl) (by rw [eq]; rfl)
    · exact dropped.of_view (by simp [flag, freed_view, at_a, frees])
    · rw [if_neg (by simp), freed_view, if_neg ne, views b ne]

omit [DecidableEq S] [DecidableEq E] in
theorem Holds.pin (h : Holds taskEvent L owner pinner) (own : owner a = some (t, e))
    (free : pinner a = none) {slots : List (EpollSlot E A)} (at_ : L.loop t = some slots)
    {x : EpollSlot E A} (userdata : x.userdata = some a) :
    ∃ L₁, L.triggerForcedGetRef a = some L₁ ∧
      Holds taskEvent (L₁.setLoop t (some (slots ++ [x]))) owner
        (Function.update pinner a (some t)) ∧
      L₁.cbNodes = L.cbNodes ∧ L₁.receptor = L.receptor ∧ L₁.loop = L.loop := by
  obtain ⟨g, trigger⟩ := h.trigger_of_owner own
  refine ⟨L.setTrigger a (some { g with forcedRef := true }),
    by rw [SlotLayer.triggerForcedGetRef, trigger]; rfl, ?_, rfl, rfl, rfl⟩
  have pinned : ∀ u, ((L.setTrigger a (some { g with forcedRef := true })).setLoop t
      (some (slots ++ [x]))).pinned u = if u = t then L.pinned t ++ [a] else L.pinned u := by
    intro u
    rw [setLoop_pinned]
    refine ite_congr rfl (fun _ => ?_) fun _ => rfl
    rw [SlotLayer.pinned, at_]
    simp [List.filterMap_append, userdata]
  rw [← Function.update_eq_self a owner]
  refine h.change h.proper ?_ (fun b ne => ?_) (fun b ne u here => ?_) (fun _ _ _ _ => rfl)
    (fun u f b => ?_) h.bare (h.other a) (fun u b => ?_) (fun u => ?_) h.epoll h.wired
  · exact ((h.ok a).pin trigger own free).of_view
      (by simp [SlotLayer.view, SlotLayer.setTrigger, SlotLayer.setLoop])
  · simp [SlotLayer.view, SlotLayer.setTrigger, SlotLayer.setLoop, ne]
  · rw [setLoop_dispatching]
    split
    · next eq =>
      rw [eq, SlotLayer.dispatching, at_] at here
      cases slots with
      | nil => cases here
      | cons y rest => exact here
    · exact here
  · rw [Function.update_eq_self]
    exact h.registered u f b
  · rw [pinned]
    have known := h.pins u b
    by_cases eq : u = t
    · subst eq
      rw [if_pos rfl, List.mem_append, List.mem_singleton, known]
      by_cases eq' : b = a
      · simp [eq']
      · simp [eq']
    · rw [if_neg eq, known]
      by_cases eq' : b = a
      · subst eq'
        simp [free, Ne.symm eq]
      · simp [eq']
  · rw [pinned]
    split
    · have out : a ∉ L.pinned t := fun mem => by
        rw [h.pins, free] at mem
        cases mem
      exact (List.perm_append_singleton a (L.pinned t)).nodup_iff.mpr
        (List.nodup_cons.mpr ⟨out, h.pins_nodup t⟩)
    · exact h.pins_nodup u

omit [DecidableEq T] [DecidableEq E] in
theorem Holds.call (h : Holds taskEvent L owner pinner) (at_ : L.dispatching t = some a)
    {l : List S} (first : L.cbNodes.list (.cbHead a) = s :: l) :
    Holds taskEvent { L with cbNodes := L.cbNodes.moveTail s (.usedTmpList a) } owner pinner := by
  have mem : s ∈ L.cbNodes.list (.cbHead a) := by simp [first]
  have out : ∀ j, j ≠ .cbHead a → (L.cbNodes.list j).erase s = L.cbNodes.list j := fun j ne =>
    List.erase_of_not_mem (h.proper.not_mem_of_ne mem ne)
  refine h.keep (a := a) (h.proper.moveTail s _) ?_ (fun b ne => ?_) (fun _ _ _ _ => rfl) rfl rfl
    rfl rfl
  · refine ((h.ok a).call first (h.pinner_of_dispatching at_) at_).of_view ?_
    simp [SlotLayer.view, h.proper.moveTail_list, out, first]
  · simp [SlotLayer.view, h.proper.moveTail_list, out, ne]

omit [DecidableEq S] [DecidableEq E] in
theorem enter_eq {slots : List (EpollSlot E A)}
    (idle : ∀ b, slots.head?.bind EpollSlot.userdata = some b →
      L.cbNodes.list (.usedTmpList b) = []) :
    L.enter t slots = L.setLoop t (some slots) := by
  rw [SlotLayer.enter]
  cases head : slots.head?.bind EpollSlot.userdata with
  | none => rfl
  | some b =>
    dsimp only
    rw [Placing.initHead_eq (idle b head)]
    rfl

omit [DecidableEq S] [DecidableEq E] in
theorem Holds.finish (h : Holds taskEvent L owner pinner) {x : EpollSlot E A}
    {rest : List (EpollSlot E A)} (at_ : L.loop t = some (x :: rest))
    (userdata : x.userdata = some a) (done : L.cbNodes.list (.cbHead a) = []) :
    ∃ L₁, SlotLayer.triggerForcedReleaseRef
        { L with cbNodes := L.cbNodes.splice (.usedTmpList a) (.cbHead a) } a = some L₁ ∧
      Holds taskEvent (L₁.enter t rest) owner (Function.update pinner a none) := by
  have here : L.dispatching t = some a := (dispatching_of_loop at_).trans userdata
  have pinned : L.pinned t = a :: rest.filterMap EpollSlot.userdata := by
    rw [pinned_of_loop at_, List.filterMap_cons_some userdata]
  obtain ⟨out, nodup⟩ := List.nodup_cons.mp (pinned ▸ h.pins_nodup t)
  have own := h.pinner_of_dispatching here
  obtain ⟨g, trigger⟩ := h.trigger_of_pinner own
  obtain ⟨L₀, eq⟩ : ∃ L₀, L₀ = { L.setTrigger a (some { g with forcedRef := false }) with
    cbNodes := L.cbNodes.splice (.usedTmpList a) (.cbHead a) } := ⟨_, rfl⟩
  have at_a : L₀.trigger a = some { g with forcedRef := false } := by
    rw [eq]
    exact Function.update_self ..
  have run : SlotLayer.triggerForcedReleaseRef
      { L with cbNodes := L.cbNodes.splice (.usedTmpList a) (.cbHead a) } a =
        some (if g.connectCnt = 0 then L₀.freed a else L₀) := by
    rw [SlotLayer.triggerForcedReleaseRef]
    dsimp only
    rw [trigger]
    change (if g.connectCnt = 0 then SlotLayer.ehFree _ a else some _) = _
    rw [show SlotLayer.setTrigger { L with
      cbNodes := L.cbNodes.splice (.usedTmpList a) (.cbHead a) } a
        (some { g with forcedRef := false }) = L₀ from eq.symm, ehFree_eq at_a]
    split <;> rfl
  obtain ⟨L₁, eq'⟩ : ∃ L₁, L₁ = if g.connectCnt = 0 then L₀.freed a else L₀ := ⟨_, rfl⟩
  have view : L₁.view a = { L.view a with
      trigger := if g.connectCnt = 0 then none else some { g with forcedRef := false }
      cb := (L.view a).used
      used := []
      frees := if g.connectCnt = 0 then (L.view a).frees + 1 else (L.view a).frees } := by
    have before : L₀.view a = { L.view a with
        trigger := some { g with forcedRef := false }, cb := (L.view a).used, used := [] } := by
      rw [eq]
      simp [SlotLayer.view, SlotLayer.setTrigger, Placing.splice, done]
    have frees : L₀.frees a = (L.view a).frees := by rw [eq]; rfl
    rw [eq']
    by_cases zero : g.connectCnt = 0
    · rw [if_pos zero, if_pos zero, if_pos zero, freed_view, if_pos rfl, before, frees]
    · rw [if_neg zero, if_neg zero, if_neg zero, before]
  have views : ∀ b ≠ a, L₁.view b = L.view b := by
    intro b ne
    have before : L₀.view b = L.view b := by
      rw [eq]
      simp [SlotLayer.view, SlotLayer.setTrigger, Placing.splice, ne]
    rw [eq']
    split
    · rw [freed_view, if_neg ne, before]
    · exact before
  have frame : L₁.receptor = L.receptor ∧ L₁.loop = L.loop ∧ L₁.hasEpoll = L.hasEpoll ∧
      L₁.events = L.events ∧ L₁.slotTask = L.slotTask ∧
      L₁.cbNodes = L.cbNodes.splice (.usedTmpList a) (.cbHead a) := by
    rw [eq', eq]
    split <;> exact ⟨rfl, rfl, rfl, rfl, rfl, rfl⟩
  obtain ⟨receptor, loop, epoll, events, slotTask, cbNodes⟩ := frame
  have enters : L₁.enter t rest = L₁.setLoop t (some rest) := by
    refine enter_eq fun b head => ?_
    have mem : b ∈ rest.filterMap EpollSlot.userdata := by
      exact mem_userdata head
    have ne : b ≠ a := fun same => out (same ▸ mem)
    have own : pinner b = some t := (h.pins t b).mp (by rw [pinned]; exact List.mem_cons_of_mem a mem)
    by_contra some
    rw [show L₁.cbNodes.list (.usedTmpList b) = L.cbNodes.list (.usedTmpList b) from
      congrArg View.used (views b ne)] at some
    obtain ⟨u, own', here'⟩ := (h.ok b).used some
    cases own.symm.trans own'
    exact ne (Option.some.inj (here'.symm.trans here))
  refine ⟨L₁, run.trans (congrArg some eq'.symm), ?_⟩
  have left : ∀ u, (L₁.setLoop t (some rest)).pinned u =
      if u = t then rest.filterMap EpollSlot.userdata else L.pinned u := by
    intro u
    rw [setLoop_pinned, SlotLayer.pinned, SlotLayer.pinned, loop]
    rfl
  rw [enters, ← Function.update_eq_self a owner]
  refine h.change ?_ ?_ (fun b ne => ?_) (fun b ne u here' => ?_) (fun b _ x _ => ?_)
    (fun u f b => ?_) (fun u f bare => ?_) (h.other a) (fun u b => ?_) (fun u => ?_)
    (fun u f known => ?_) ?_
  · change L₁.cbNodes.Proper
    rw [cbNodes]
    exact h.proper.splice (by simp)
  · change TriggerOk (L₁.view a) _ L₁.slotTask _ _
    rw [slotTask]
    exact ((h.ok a).finish trigger done).of_view view
  · exact views b ne
  · rw [setLoop_dispatching, SlotLayer.dispatching, loop]
    split
    · next same =>
      rw [same, here] at here'
      exact absurd (Option.some.inj here').symm ne
    · exact here'
  · change L₁.slotTask x = L.slotTask x
    rw [slotTask]
  · change L₁.receptor u f = _ ↔ _
    rw [receptor, Function.update_eq_self]
    exact h.registered u f b
  · change L₁.receptor u f = _ at bare
    exact h.bare u f (receptor ▸ bare)
  · rw [left]
    have known := h.pins u b
    by_cases same : u = t
    · subst same
      rw [pinned, List.mem_cons] at known
      rw [if_pos rfl]
      by_cases eq'' : b = a
      · subst eq''
        simp [out]
      · rw [Function.update_of_ne eq'', ← known, or_iff_right eq'']
    · rw [if_neg same, known]
      by_cases eq'' : b = a
      · subst eq''
        simp [own, Ne.symm same]
      · rw [Function.update_of_ne eq'']
  · rw [left]
    split
    · exact nodup
    · exact h.pins_nodup u
  · change L₁.receptor u f ≠ none at known
    change L₁.hasEpoll u = true
    rw [epoll]
    exact h.epoll u f (receptor ▸ known)
  · change Wired L₁.events fun u f => L₁.receptor u f ≠ none
    rw [events, receptor]
    exact h.wired

end EventHub.EventCb
