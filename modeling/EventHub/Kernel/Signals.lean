import EventHub.Kernel.Machine

/-! What a notification, a clean, a wake-up or an expiring timer does to the system. All of
them wake tasks up and mark receptors, and none moves a task on. -/

namespace EventHub.Kernel
open Library Event

variable {T O P W C A : Type}

structure Stirred [DecidableEq T] (s s' : Eh T O P W C A) : Prop where
  sched : ∃ ts : List T, (∀ t ∈ ts, s.alive t = true) ∧
    s'.sched = ts.foldl Sched.ehTaskWakeUp s.sched
  point : s'.point = s.point
  alive : s'.alive = s.alive
  registered : s'.registered = s.registered
  sincePoll : s'.sincePoll = s.sincePoll
  receptors : ∀ {e r}, r ∈ s'.events.receptors e → r ∈ s.events.receptors e
  kept : ∀ {e t}, .wait t ∈ s.events.receptors e →
    .wait t ∈ s'.events.receptors e ∨ (s'.events.flags (.wait t)).error = true
  nodup : ∀ {e}, (s.events.receptors e).Nodup → (s'.events.receptors e).Nodup
  errorKept : ∀ {t}, (s.events.flags (.wait t)).error = true →
    (s'.events.flags (.wait t)).error = true
  error : ∀ {t}, (s'.events.flags (.wait t)).error = true →
    (s.events.flags (.wait t)).error = true ∨ s'.reached t = true
  /-- A receptor that stays linked has met no error. -/
  clear : ∀ {e t}, .wait t ∈ s'.events.receptors e →
    (s.events.flags (.wait t)).error = false → (s'.events.flags (.wait t)).error = false
  reached : ∀ {t}, s'.reached t = true → s.reached t = true ∨ s'.sched.state t ≠ .wait
  reachedKept : ∀ {t}, s.reached t = true → s'.reached t = true
  wakeupTask : ∀ p, (s'.events.epoll p).wakeupTask = (s.events.epoll p).wakeupTask

/-- Nothing names a task that is not allocated, and `receptor` is linked to one event. -/
structure Owned (s : Eh T O P W C A) : Prop where
  receptor : ∀ {e r t}, r ∈ s.events.receptors e → r = .wait t ∨ r = .timer t →
    s.alive t = true
  epoll : ∀ {p t}, (s.events.epoll p).wakeupTask = some t → s.alive t = true
  single : ∀ {e x t}, .wait t ∈ s.events.receptors e → .wait t ∈ s.events.receptors x → e = x

theorem Owned.wakeups {s : Eh T O P W C A} (h : Owned s) {rs : List (Receptor (EhEvent T O) T P)}
    {e : EhEvent T O} (sub : ∀ r ∈ rs, r ∈ s.events.receptors e) :
    ∀ t ∈ s.events.wakeups rs, s.alive t = true := by
  intro t mem
  obtain ⟨r, memR, wakes⟩ := List.mem_filterMap.mp mem
  cases r with
  | wait u =>
    cases wakes
    exact h.receptor (sub _ memR) (.inl rfl)
  | timer u =>
    cases wakes
    exact h.receptor (sub _ memR) (.inr rfl)
  | epoll p e => exact h.epoll wakes

variable [DecidableEq T]

namespace Stirred
variable {s s' : Eh T O P W C A}

theorem refl (s : Eh T O P W C A) : Stirred s s where
  sched := ⟨[], by simp, rfl⟩
  point := rfl
  alive := rfl
  registered := rfl
  sincePoll := rfl
  receptors h := h
  kept := .inl
  nodup h := h
  errorKept h := h
  error := .inl
  clear _ h := h
  reached := .inl
  reachedKept h := h
  wakeupTask _ := rfl

theorem of_wakeUp {t : T} (live : s.alive t = true) : Stirred s (s.wakeUp t) :=
  { refl s with
    sched := ⟨[t], by simpa using live, rfl⟩
    reached := .inl }

theorem currentTask (h : Stirred s s') : s'.self = s.self := by
  obtain ⟨ts, -, eq⟩ := h.sched
  rw [Eh.self, eq, Sched.foldl_wakeUp_currentTask]

theorem dispatchCnt (h : Stirred s s') : s'.sched.dispatchCnt = s.sched.dispatchCnt := by
  obtain ⟨ts, -, eq⟩ := h.sched
  rw [eq, Sched.foldl_wakeUp_dispatchCnt]

theorem state (h : Stirred s s') (t : T) :
    s'.sched.state t = s.sched.state t ∨
      s.sched.state t = .wait ∧ s'.sched.state t = .ready := by
  obtain ⟨ts, -, eq⟩ := h.sched
  rw [eq, Sched.foldl_wakeUp_state]
  by_cases both : t ∈ ts ∧ s.sched.state t = .wait
  · right
    simp [both]
  · left
    rw [if_neg both]

end Stirred

variable [DecidableEq O] [DecidableEq P] {s : Eh T O P W C A}

theorem reach_state {rs : List (Receptor (EhEvent T O) T P)}
    {events : Events (EhEvent T O) T P} {t : T} (mem : .wait t ∈ rs ∨ .timer t ∈ rs) :
    (s.reach rs events).sched.state t ≠ .wait := by
  have memT : t ∈ s.events.wakeups rs := by
    rcases mem with mem | mem
    · exact List.mem_filterMap.mpr ⟨_, mem, rfl⟩
    · exact List.mem_filterMap.mpr ⟨_, mem, rfl⟩
  rw [Eh.reach, Sched.foldl_wakeUp_state]
  by_cases waits : s.sched.state t = .wait
  · simp [memT, waits]
  · simp [waits]

theorem reach_stirred (own : Owned s) {rs : List (Receptor (EhEvent T O) T P)}
    {events : Events (EhEvent T O) T P} {e : EhEvent T O}
    (sub : ∀ r ∈ rs, r ∈ s.events.receptors e)
    (receptors : ∀ x r, r ∈ events.receptors x → r ∈ s.events.receptors x)
    (kept : ∀ x r, r ∈ s.events.receptors x →
      r ∈ events.receptors x ∨ (events.flags r).error = true)
    (nodup : ∀ x, (s.events.receptors x).Nodup → (events.receptors x).Nodup)
    (errorKept : ∀ r, (s.events.flags r).error = true → (events.flags r).error = true)
    (error : ∀ r, r ∉ rs → (events.flags r).error = (s.events.flags r).error)
    (clear : ∀ x t, .wait t ∈ events.receptors x →
      (events.flags (.wait t)).error = (s.events.flags (.wait t)).error)
    (wakeupTask : ∀ p, (events.epoll p).wakeupTask = (s.events.epoll p).wakeupTask) :
    Stirred s (s.reach rs events) where
  sched := ⟨s.events.wakeups rs, own.wakeups sub, rfl⟩
  point := rfl
  alive := rfl
  registered := rfl
  sincePoll := rfl
  receptors h := receptors _ _ h
  kept h := kept _ _ h
  nodup h := nodup _ h
  errorKept h := errorKept _ h
  error {t} h := by
    by_cases mem : .wait t ∈ rs
    · right
      simp [Eh.reach, mem]
    · left
      rw [← error _ mem]
      exact h
  clear mem h := (clear _ _ mem).trans h
  reached {t} h := by
    by_cases mem : .wait t ∈ rs ∨ .timer t ∈ rs
    · right
      exact reach_state mem
    · left
      obtain ⟨notWait, notTimer⟩ := not_or.mp mem
      simpa [Eh.reach, notWait, notTimer] using h
  reachedKept {t} h := by simp [Eh.reach, h]
  wakeupTask := wakeupTask

theorem signal_stirred (own : Owned s) (g : Signal (EhEvent T O)) : Stirred s (s.signal g) := by
  cases g with
  | notify e =>
    refine reach_stirred own (e := e) (fun r mem => mem) ?_ ?_ ?_ ?_ ?_ ?_ ?_
    · intro x r mem
      simpa using mem
    · intro x r mem
      left
      simpa using mem
    · intro x nodup
      simpa using nodup
    · intro r err
      rw [Events.ehEventNotify, Events.foldl_notify_flags]
      split <;> exact err
    · intro r out
      rw [Events.ehEventNotify, Events.foldl_notify_flags, if_neg out]
    · intro x t _
      rw [Events.ehEventNotify, Events.foldl_notify_flags]
      split <;> rfl
    · intro p
      rw [Events.ehEventNotify, Events.foldl_notify_wakeupTask]
  | notifyAndReorder e num =>
    have perm := fun x => s.events.ehEventNotifyAndReorder_perm e x num
    refine reach_stirred own (e := e) (fun r mem => List.mem_of_mem_take mem) ?_ ?_ ?_ ?_ ?_ ?_
      ?_
    · intro x r mem
      exact (perm x).mem_iff.mp mem
    · intro x r mem
      left
      exact (perm x).mem_iff.mpr mem
    · intro x nodup
      exact (perm x).nodup_iff.mpr nodup
    · intro r err
      rw [Events.ehEventNotifyAndReorder, Events.foldl_notify_flags]
      split <;> exact err
    · intro r out
      rw [Events.ehEventNotifyAndReorder, Events.foldl_notify_flags, if_neg out]
    · intro x t _
      rw [Events.ehEventNotifyAndReorder, Events.foldl_notify_flags]
      split <;> rfl
    · intro p
      exact Events.foldl_notify_wakeupTask _ _ p
  | clean e =>
    refine reach_stirred own (e := e) (fun r mem => mem) ?_ ?_ ?_ ?_ ?_ ?_ ?_
    · intro x r mem
      rw [Events.ehEventClean_receptors] at mem
      by_cases eq : x = e
      · subst eq
        simp at mem
      · simpa [eq] using mem
    · intro x r mem
      rw [Events.ehEventClean_receptors]
      by_cases eq : x = e
      · subst eq
        right
        rw [Events.ehEventClean, Events.foldl_clean_flags, if_pos mem]
      · left
        simpa [eq] using mem
    · intro x nodup
      rw [Events.ehEventClean_receptors]
      by_cases eq : x = e
      · subst eq
        simp
      · simpa [eq] using nodup
    · intro r err
      rw [Events.ehEventClean, Events.foldl_clean_flags]
      split
      · rfl
      · exact err
    · intro r out
      rw [Events.ehEventClean, Events.foldl_clean_flags, if_neg out]
    · intro x t mem
      rw [Events.ehEventClean_receptors] at mem
      by_cases eq : x = e
      · subst eq
        simp at mem
      · simp only [Function.update_of_ne eq] at mem
        rw [Events.ehEventClean, Events.foldl_clean_flags, if_neg]
        exact fun mem' => eq (own.single mem mem')
    · intro p
      rw [Events.ehEventClean, Events.foldl_clean_wakeupTask]

theorem readPending_frame (p : P) (ev : Events (EhEvent T O) T P) (l : List (EhEvent T O))
    (room : Nat) :
    (ev.readPending p l room).2.receptors = ev.receptors ∧
      (∀ r, (∀ q x, r ≠ .epoll q x) → (ev.readPending p l room).2.flags r = ev.flags r) ∧
      ∀ q, ((ev.readPending p l room).2.epoll q).wakeupTask = (ev.epoll q).wakeupTask := by
  induction l generalizing ev room with
  | nil => exact ⟨rfl, fun _ _ => rfl, fun _ => rfl⟩
  | cons e rest ih =>
    have unlinked : ∀ q, ((ev.setEpoll p { ev.epoll p with pending := rest }).epoll q).wakeupTask =
        (ev.epoll q).wakeupTask := by
      intro q
      by_cases eq : q = p
      · subst eq
        simp [Events.setEpoll]
      · simp [Events.setEpoll, eq]
    rw [Events.readPending]
    split
    · exact ⟨rfl, fun _ _ => rfl, unlinked⟩
    · split
      · exact ⟨rfl, fun r ne => by simp [Events.setFlags, Events.setEpoll, ne], unlinked⟩
      · obtain ⟨receptors, flags, wakeupTask⟩ := ih
          ((ev.setEpoll p { ev.epoll p with pending := rest }).setFlags (.epoll p e) .clear)
          (room - 1)
        refine ⟨receptors, fun r ne => (flags r ne).trans ?_,
          fun q => (wakeupTask q).trans (unlinked q)⟩
        simp [Events.setFlags, Events.setEpoll, ne]

theorem read_stirred (s : Eh T O P W C A) (p : P) (slotSize : Nat) :
    Stirred s { s with events := (s.events.ehEpollPendingReadOnLock p slotSize).2 } := by
  obtain ⟨receptors, plain, wakeupTask⟩ :=
    readPending_frame p s.events (s.events.epoll p).pending slotSize
  rw [← Events.ehEpollPendingReadOnLock] at receptors plain wakeupTask
  have flags := fun t => plain (.wait t) (by simp)
  exact { Stirred.refl s with
    receptors := fun mem => receptors ▸ mem
    kept := fun mem => .inl (receptors ▸ mem)
    nodup := fun nodup => receptors ▸ nodup
    errorKept := fun err => (flags _).symm ▸ err
    error := fun err => .inl ((flags _) ▸ err)
    clear := fun _ err => (flags _).symm ▸ err
    wakeupTask := wakeupTask }

theorem expire_stirred (own : Owned s) (t : T) : Stirred s (s.expire t) := by
  rw [Eh.expire]
  split
  · have own' : Owned { s with timerRunning := Function.update s.timerRunning t false } :=
      ⟨own.receptor, own.epoll, own.single⟩
    have stirred := signal_stirred own' (.notify (.timer t))
    exact { stirred with }
  · exact .refl s

theorem perform_stirred (sys : System T O W C A) (own : Owned s) (a : A) :
    Stirred s (s.perform sys a) := by
  have own' : Owned { s with world := (sys.act a s.self s.world).world } :=
    ⟨own.receptor, own.epoll, own.single⟩
  rw [Eh.perform]
  split
  · exact { Stirred.refl s with }
  · next g _ =>
    have stirred := signal_stirred own' (g.map .object)
    exact { stirred with }

end EventHub.Kernel
