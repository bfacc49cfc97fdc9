import EventHub.Event.Due
import EventHub.EventCb.Slots
import Mathlib.Data.List.Perm.Subperm

/-! The receptors of the epolls among the events: one for each registered event, linked to it
or not, and in the list of pending ones or not. -/

namespace EventHub.EventCb
open Library Kernel Event

variable {T E : Type}

structure Wired (ev : Events E T T) (registered : T → E → Prop) : Prop where
  linked : ∀ {t e f}, .epoll t f ∈ ev.receptors e → f = e ∧ registered t e
  nodup : ∀ e, (ev.receptors e).Nodup
  pending : ∀ {t e}, e ∈ (ev.epoll t).pending → registered t e
  pending_nodup : ∀ t, (ev.epoll t).pending.Nodup

namespace Wired
variable {ev : Events E T T} {registered : T → E → Prop} {t : T} {e : E}

theorem init (registered : T → E → Prop) :
    Wired (⟨fun _ => [], fun _ => .clear, fun _ => ⟨[], none⟩⟩ : Events E T T) registered :=
  ⟨fun mem => (List.not_mem_nil mem).elim, fun _ => .nil, fun mem => (List.not_mem_nil mem).elim,
    fun _ => .nil⟩

theorem mono (h : Wired ev registered) {registered' : T → E → Prop}
    (sub : ∀ t e, registered t e → registered' t e) : Wired ev registered' where
  linked mem := ⟨(h.linked mem).1, sub _ _ (h.linked mem).2⟩
  nodup := h.nodup
  pending mem := sub _ _ (h.pending mem)
  pending_nodup := h.pending_nodup

variable [DecidableEq T] [DecidableEq E]

theorem reach (h : Wired ev registered) {ev' : Events E T T} {rs : List (Receptor E T T)}
    (sub : ∀ r ∈ rs, r ∈ ev.receptors e)
    (receptors : ∀ f, (ev'.receptors f).Subperm (ev.receptors f))
    (pending : ∀ t, (ev'.epoll t).pending = (epollEvents t rs).foldl pend (ev.epoll t).pending) :
    Wired ev' registered where
  linked mem := h.linked ((receptors _).subset mem)
  nodup f := by
    obtain ⟨l, perm, sublist⟩ := receptors f
    exact perm.nodup_iff.mp ((h.nodup f).sublist sublist)
  pending {t f} mem := by
    rw [pending] at mem
    have own : ∀ g ∈ epollEvents t rs, registered t g := by
      intro g reached
      obtain ⟨r, at_, eq⟩ := List.mem_filterMap.mp reached
      cases r with
      | epoll q k =>
        dsimp only at eq
        split at eq
        · next same =>
          cases eq
          obtain ⟨rfl, own⟩ := h.linked (sub _ at_)
          rwa [same] at own
        · cases eq
      | _ => cases eq
    have known : ∀ g ∈ (ev.epoll t).pending, registered t g := fun g => h.pending
    generalize epollEvents t rs = l at mem own
    generalize (ev.epoll t).pending = k at mem known
    induction l generalizing k with
    | nil => exact known f mem
    | cons g l ih =>
      refine ih (fun g' mem' => own g' (by simp [mem'])) (pend k g) mem fun g' mem' => ?_
      unfold pend at mem'
      split at mem'
      · exact known g' mem'
      · rcases List.mem_append.mp mem' with old | new
        · exact known g' old
        · exact own g' (by simp [List.mem_singleton.mp new])
  pending_nodup t := by
    rw [pending]
    have nodup := h.pending_nodup t
    generalize (ev.epoll t).pending = k at nodup
    induction epollEvents t rs generalizing k with
    | nil => exact nodup
    | cons g l ih => exact ih (pend k g) (nodup_pend nodup g)

theorem notify (h : Wired ev registered) (e : E) : Wired (ev.ehEventNotify e) registered :=
  h.reach (fun _ mem => mem) (fun f => by rw [Events.ehEventNotify_receptors])
    fun t => Events.foldl_notify_pending (ev.receptors e) ev t

theorem notifyAndReorder (h : Wired ev registered) (e : E) (num : Int) :
    Wired (ev.ehEventNotifyAndReorder e num) registered :=
  h.reach (fun _ mem => List.mem_of_mem_take mem)
    (fun f => (Events.ehEventNotifyAndReorder_perm ev e f num).subperm)
    fun t => Events.foldl_notify_pending (ev.reordered e num) ev t

theorem clean (h : Wired ev registered) (e : E) : Wired (ev.ehEventClean e) registered := by
  refine h.reach (fun _ mem => mem) (fun f => ?_)
    fun t => Events.foldl_clean_pending e (ev.receptors e) ev t
  rw [Events.ehEventClean_receptors, Function.update_apply]
  split
  · exact List.nil_subperm
  · exact .refl _

theorem readPending_spec (ev : Events E T T) (l : List E) (room : Nat)
    (pending : (ev.epoll t).pending = l) :
    ((ev.readPending t l room).1.map Prod.fst).Sublist l ∧
      (ev.readPending t l room).2.receptors = ev.receptors ∧
      ((ev.readPending t l room).2.epoll t).pending.Sublist l ∧
      ∀ u ≠ t, (ev.readPending t l room).2.epoll u = ev.epoll u := by
  induction l generalizing ev room with
  | nil => exact ⟨.slnil, rfl, by rw [Events.readPending, pending], fun _ _ => rfl⟩
  | cons e rest ih =>
    rw [Events.readPending]
    have others : ∀ u ≠ t, (ev.setEpoll t { ev.epoll t with pending := rest }).epoll u =
        ev.epoll u := fun u ne => Function.update_of_ne ne ..
    have own : ((ev.setEpoll t { ev.epoll t with pending := rest }).epoll t).pending = rest := by
      simp [Events.setEpoll]
    split
    · refine ⟨List.nil_sublist _, rfl, ?_, others⟩
      rw [own]
      exact List.sublist_cons_self e rest
    · split
      · refine ⟨(List.nil_sublist rest).cons_cons e, rfl, ?_, others⟩
        change ((ev.setEpoll t { ev.epoll t with pending := rest }).epoll t).pending.Sublist _
        rw [own]
        exact List.sublist_cons_self e rest
      · obtain ⟨slots, receptors, left, elsewhere⟩ := ih ((ev.setEpoll t
          { ev.epoll t with pending := rest }).setFlags (.epoll t e) .clear) (room - 1) own
        exact ⟨slots.cons_cons e, receptors, left.cons e,
          fun u ne => (elsewhere u ne).trans (others u ne)⟩

theorem read (h : Wired ev registered) (t : T) (n : Nat) :
    Wired (ev.ehEpollPendingReadOnLock t n).2 registered := by
  obtain ⟨-, receptors, left, elsewhere⟩ := readPending_spec ev (ev.epoll t).pending n rfl
  have sub : ∀ u, ((ev.ehEpollPendingReadOnLock t n).2.epoll u).pending.Sublist
      (ev.epoll u).pending := by
    intro u
    by_cases same : u = t
    · rw [same]
      exact left
    · rw [Events.ehEpollPendingReadOnLock, elsewhere u same]
  refine ⟨fun mem => ?_, fun e => ?_, fun mem => h.pending ((sub _).subset mem),
    fun u => (h.pending_nodup u).sublist (sub u)⟩
  · rw [Events.ehEpollPendingReadOnLock, receptors] at mem
    exact h.linked mem
  · rw [Events.ehEpollPendingReadOnLock, receptors]
    exact h.nodup e

theorem reported (h : Wired ev registered) (t : T) (n : Nat) :
    ((ev.ehEpollPendingReadOnLock t n).1.map Prod.fst).Nodup ∧
      ∀ x ∈ (ev.ehEpollPendingReadOnLock t n).1, registered t x.1 := by
  have sub := (readPending_spec ev (ev.epoll t).pending n rfl).1
  exact ⟨(h.pending_nodup t).sublist sub, fun x mem =>
    h.pending (sub.subset (List.mem_map_of_mem mem))⟩

theorem add (h : Wired ev registered) (out : ¬ registered t e) {registered' : T → E → Prop}
    (own : registered' t e) (sub : ∀ u f, registered u f → registered' u f) :
    Wired ((ev.setFlags (.epoll t e) .clear).addReceptor e (.epoll t e)) registered' := by
  have fresh : .epoll t e ∉ ev.receptors e := fun mem => out (h.linked mem).2
  refine ⟨fun {u f g} mem => ?_, fun f => ?_, fun mem => sub _ _ (h.pending mem),
    h.pending_nodup⟩
  · simp only [Events.addReceptor, Events.setFlags, Function.update_apply] at mem
    split at mem
    · next same =>
      rcases List.mem_append.mp mem with old | new
      · obtain ⟨eq, known⟩ := h.linked old
        exact ⟨eq.trans same.symm, same ▸ sub _ _ known⟩
      · cases List.mem_singleton.mp new
        exact ⟨same.symm, same ▸ own⟩
    · exact ⟨(h.linked mem).1, sub _ _ (h.linked mem).2⟩
  · simp only [Events.addReceptor, Events.setFlags, Function.update_apply]
    split
    · exact (List.perm_append_singleton _ _).nodup_iff.mpr
        (List.nodup_cons.mpr ⟨fresh, h.nodup e⟩)
    · exact h.nodup f

theorem del (h : Wired ev registered) (t : T) (e : E) :
    Wired ((ev.removeReceptor e (.epoll t e)).setEpoll t
        { ev.epoll t with pending := (ev.epoll t).pending.erase e })
      fun u f => registered u f ∧ ¬ (u = t ∧ f = e) where
  linked {u f g} mem := by
    simp only [Events.setEpoll, Events.removeReceptor, Function.update_apply] at mem
    split at mem
    · next same =>
      obtain ⟨ne, old⟩ := ((h.nodup e).mem_erase_iff).mp mem
      obtain ⟨eq, known⟩ := h.linked old
      subst same eq
      exact ⟨rfl, known, fun both => ne (by rw [both.1])⟩
    · next other =>
      obtain ⟨eq, known⟩ := h.linked mem
      exact ⟨eq, known, fun both => other both.2⟩
  nodup f := by
    simp only [Events.setEpoll, Events.removeReceptor, Function.update_apply]
    split
    · exact (h.nodup e).erase _
    · exact h.nodup f
  pending {u f} mem := by
    simp only [Events.setEpoll, Function.update_apply] at mem
    split at mem
    · next same =>
      subst same
      obtain ⟨ne, old⟩ := ((h.pending_nodup u).mem_erase_iff).mp mem
      exact ⟨h.pending old, fun both => ne both.2⟩
    · next other => exact ⟨h.pending mem, fun both => other both.1⟩
  pending_nodup u := by
    simp only [Events.setEpoll, Function.update_apply]
    split
    · exact (h.pending_nodup t).erase e
    · exact h.pending_nodup u

omit [DecidableEq E] in
theorem reset (h : Wired ev registered) (t : T) :
    Wired (ev.setEpoll t ⟨[], none⟩) registered where
  linked := h.linked
  nodup := h.nodup
  pending {u f} mem := by
    simp only [Events.setEpoll, Function.update_apply] at mem
    split at mem
    · cases mem
    · exact h.pending mem
  pending_nodup u := by
    simp only [Events.setEpoll, Function.update_apply]
    split
    · exact .nil
    · exact h.pending_nodup u

end Wired

end EventHub.EventCb
