import EventHub.Event.Epoll
import EventHub.Library.Transition

/-! What an epoll is for: a queue of the events that its task has to hear of. An event enters it
when a notification or a clean reaches its receptor, and leaves it when it is reported. -/

namespace EventHub.Event
open Library RbTree Kernel

variable {E T P D : Type}

/-- The registered events with their userdata, those cleaned since they were registered, and the
events that are due in the order in which they became so, each with whether it was cleaned since
it was last reported. -/
structure Due (E D : Type) where
  given : E → Option (Option D)
  cleaned : E → Bool
  queue : List (E × Bool)

namespace Due

def init : Due E D := ⟨fun _ => none, fun _ => false, []⟩

def events (x : Due E D) : List E := x.queue.map Prod.fst

def linked (x : Due E D) (e : E) : Bool := (x.given e).isSome && !x.cleaned e

/-- The slots for the first `n` events. -/
def report (x : Due E D) (n : Nat) : List (EpollSlot E D) :=
  (x.queue.take n).map fun y =>
    ⟨y.1, (x.given y.1).join, if y.2 then .error else .eventTrigger⟩

def reported (x : Due E D) (n : Nat) : Due E D := { x with queue := x.queue.drop n }

variable [DecidableEq E]

def reach (x : Due E D) (e : E) (error : Bool) : Due E D :=
  { x with
    queue :=
      if e ∈ x.events then x.queue.map fun y => (y.1, y.2 || (error && decide (y.1 = e)))
      else x.queue ++ [(e, error)] }

def register (x : Due E D) (e : E) (userdata : Option D) : Due E D :=
  { x with
    given := Function.update x.given e (some userdata)
    cleaned := Function.update x.cleaned e false }

def forget (x : Due E D) (e : E) : Due E D :=
  { x with given := Function.update x.given e none, queue := x.queue.filter fun y => y.1 ≠ e }

variable [DecidableEq T] [DecidableEq P]

def step (p : P) (s : Epoll E T P D) (x : Due E D) : EpollLabel E T P D → Due E D
  | .add e userdata memory =>
    if (x.given e).isNone && memory then x.register e userdata else x
  | .del e => x.forget e
  | .notify e => if x.linked e then x.reach e false else x
  | .notifyAndReorder e num =>
    if .epoll p e ∈ s.events.reordered e num then x.reach e false else x
  | .clean e =>
    if x.linked e then { x.reach e true with cleaned := Function.update x.cleaned e true } else x
  | .wait slotSize timeout =>
    if timeout = ehTimeForever ∨ 0 < timeout then x else x.reported slotSize
  | .pass => (s.waiting.map fun w => x.reported w.slotSize).getD x
  | .expire | .link _ _ | .unlink _ _ => x

variable {x : Due E D} {e : E}

omit [DecidableEq T] [DecidableEq P] in
theorem events_reach (x : Due E D) (e : E) (error : Bool) :
    (x.reach e error).events = pend x.events e := by
  rw [reach, events, pend]
  dsimp only
  split
  · next mem =>
    rw [List.map_map]
    rfl
  · simp [events]

theorem mem_reach {error : Bool} {y : E × Bool}
    (mem : y ∈ (x.reach e error).queue) :
    y.1 = e ∧ (y.2 = error ∧ e ∉ x.events ∨ ∃ b, (e, b) ∈ x.queue ∧ y.2 = (b || error)) ∨
      y.1 ≠ e ∧ y ∈ x.queue := by
  rw [reach] at mem
  dsimp only at mem
  split at mem
  · obtain ⟨z, old, rfl⟩ := List.mem_map.mp mem
    by_cases eq : z.1 = e
    · refine .inl ⟨eq, .inr ⟨z.2, ?_, ?_⟩⟩
      · rw [← eq]
        exact old
      · simp [eq]
    · refine .inr ⟨eq, ?_⟩
      simpa [eq] using old
  · next out =>
    rcases List.mem_append.mp mem with old | new
    · refine .inr ⟨?_, old⟩
      rintro rfl
      exact out (List.mem_map_of_mem old)
    · rw [List.mem_singleton.mp new]
      exact .inl ⟨rfl, .inl ⟨rfl, out⟩⟩

end Due

variable [LinearOrder E] [DecidableEq T] [DecidableEq P]

structure QueueOk (p : P) (s : Epoll E T P D) (x : Due E D) : Prop where
  pending : (s.events.epoll p).pending = x.events
  nodup : x.events.Nodup
  registered : ∀ e ∈ x.events, e ∈ s.allReceptorTree.nodes
  queued : ∀ y ∈ x.queue, (s.events.flags (.epoll p y.1)).error = y.2 ∧
    (s.events.flags (.epoll p y.1)).any = true
  idle : ∀ e ∈ s.allReceptorTree.nodes, e ∉ x.events → s.events.flags (.epoll p e) = .clear

/-- The epoll is right: its tree, its list, the flags and the lists of the events are views of
one queue. -/
structure Agrees (p : P) (s : Epoll E T P D) (x : Due E D) : Prop extends QueueOk p s x where
  wf : s.allReceptorTree.Wf
  sorted : s.allReceptorTree.nodes.Pairwise (· < ·)
  given : ∀ e, x.given e =
    if e ∈ s.allReceptorTree.nodes then some (s.userdata e) else none
  own : ∀ {e f}, .epoll p f ∈ s.events.receptors e → f = e
  linked : ∀ e, (s.events.receptors e).count (.epoll p e) = if x.linked e then 1 else 0
  room : ∀ w, s.waiting = some w → 0 < w.slotSize

variable {p : P} {s : Epoll E T P D} {x : Due E D}

/-! Signals. -/

omit [LinearOrder E] [DecidableEq T] [DecidableEq P] in
theorem nodup_pend [DecidableEq E] {l : List E} (h : l.Nodup) (e : E) : (pend l e).Nodup := by
  rw [pend]
  split
  · exact h
  · next out =>
    rw [← List.concat_eq_append]
    exact h.concat out

theorem epollEvents_eq {e : E} {rs : List (Receptor E T P)}
    (own : ∀ f, .epoll p f ∈ rs → f = e) :
    epollEvents p rs = List.replicate (rs.count (.epoll p e)) e := by
  induction rs with
  | nil => rfl
  | cons r rs ih =>
    have rest := ih fun f mem => own f (List.mem_cons_of_mem _ mem)
    rw [epollEvents_cons, rest]
    cases r with
    | epoll q f =>
      by_cases eq : q = p
      · subst eq
        obtain rfl := own f List.mem_cons_self
        simp [epollEvents, List.replicate_succ]
      · simp [epollEvents, eq]
    | wait t => simp [epollEvents]
    | timer t => simp [epollEvents]

def mark (error : Bool) (f : Flags) : Flags :=
  if error then { f with error := true } else { f with trigger := true }

theorem QueueOk.reach (h : QueueOk p s x) {e : E} {rs : List (Receptor E T P)} {error : Bool}
    {events : Events E T P} (own : ∀ f, .epoll p f ∈ rs → f = e)
    (once : rs.count (.epoll p e) ≤ 1) (node : .epoll p e ∈ rs → e ∈ s.allReceptorTree.nodes)
    (flags : ∀ r, events.flags r = if r ∈ rs then mark error (s.events.flags r)
      else s.events.flags r)
    (pending : (events.epoll p).pending =
      (epollEvents p rs).foldl pend (s.events.epoll p).pending) :
    QueueOk p { s with events := events }
      (if .epoll p e ∈ rs then x.reach e error else x) := by
  have elsewhere : ∀ f, f ≠ e → events.flags (.epoll p f) = s.events.flags (.epoll p f) := by
    intro f ne
    rw [flags, if_neg fun mem => ne (own f mem)]
  split
  · next mem =>
    have one : rs.count (.epoll p e) = 1 :=
      Nat.le_antisymm once (List.count_pos_iff.mpr mem)
    have marked : events.flags (.epoll p e) = mark error (s.events.flags (.epoll p e)) := by
      rw [flags, if_pos mem]
    constructor
    · rw [pending, epollEvents_eq own, one, h.pending, x.events_reach]
      rfl
    · rw [x.events_reach]
      exact nodup_pend h.nodup e
    · intro f due
      rw [x.events_reach, pend] at due
      split at due
      · exact h.registered f due
      · rcases List.mem_append.mp due with old | new
        · exact h.registered f old
        · rw [List.mem_singleton.mp new]
          exact node mem
    · intro y due
      rcases Due.mem_reach due with ⟨eq, new | ⟨b, old, err⟩⟩ | ⟨ne, old⟩
      · have clear := h.idle e (node mem) new.2
        rw [eq, marked, clear, new.1, mark]
        cases error <;> exact ⟨rfl, rfl⟩
      · obtain ⟨before, any⟩ := h.queued (e, b) old
        rw [eq, marked, err, mark]
        rw [Flags.any] at any
        cases error <;> simp_all [Flags.any]
      · rw [elsewhere y.1 ne]
        exact h.queued y old
    · intro f node out
      rw [x.events_reach, pend] at out
      have ne : f ≠ e := by
        rintro rfl
        split at out
        · contradiction
        · simp at out
      rw [elsewhere f ne]
      apply h.idle f node
      intro old
      split at out
      · exact out old
      · exact out (List.mem_append_left _ old)
  · next out =>
    have none : epollEvents p rs = [] := by
      rw [epollEvents_eq own, List.count_eq_zero.mpr out]
      rfl
    have same : ∀ f, events.flags (.epoll p f) = s.events.flags (.epoll p f) := by
      intro f
      rw [flags, if_neg fun mem => out (own f mem ▸ mem)]
    constructor
    · rw [pending, none]
      exact h.pending
    · exact h.nodup
    · exact h.registered
    · intro y due
      rw [same]
      exact h.queued y due
    · intro f node due
      rw [same]
      exact h.idle f node due

theorem Agrees.linked_iff (h : Agrees p s x) (e : E) :
    .epoll p e ∈ s.events.receptors e ↔ x.linked e = true := by
  have count := h.linked e
  rw [← List.count_pos_iff, count]
  split
  · next linked => simp [linked]
  · next linked => simp [linked]

theorem Agrees.node (h : Agrees p s x) {e : E} (linked : x.linked e = true) :
    e ∈ s.allReceptorTree.nodes := by
  have given := h.given e
  rw [Due.linked, Bool.and_eq_true] at linked
  by_contra out
  rw [given, if_neg out] at linked
  cases linked.1

theorem Agrees.reach (h : Agrees p s x) (events : Events E T P) (error : Bool) {e : E}
    {rs : List (Receptor E T P)} (sub : rs.Sublist (s.events.receptors e))
    (flags : ∀ r, events.flags r = if r ∈ rs then mark error (s.events.flags r)
      else s.events.flags r)
    (pending : (events.epoll p).pending =
      (epollEvents p rs).foldl pend (s.events.epoll p).pending) :
    QueueOk p { s with events := events }
      (if .epoll p e ∈ rs then x.reach e error else x) := by
  refine h.toQueueOk.reach (fun f mem => h.own (sub.subset mem)) ?_ ?_ flags pending
  · apply (sub.count_le _).trans
    rw [h.linked]
    split <;> decide
  · exact fun mem => h.node ((h.linked_iff e).mp (sub.subset mem))

theorem Agrees.notify (h : Agrees p s x) (e : E) :
    Agrees p { s with events := s.events.ehEventNotify e }
      (if x.linked e then x.reach e false else x) := by
  have queue := h.reach (s.events.ehEventNotify e) false
    (List.Sublist.refl _) (fun r => Events.foldl_notify_flags _ _ r)
    (Events.foldl_notify_pending _ _ p)
  simp only [h.linked_iff] at queue
  have receptors := s.events.ehEventNotify_receptors e
  refine {
    queue with
    wf := h.wf
    sorted := h.sorted
    given := fun f => ?_
    own := ?_
    linked := ?_
    room := h.room }
  · split <;> exact h.given f
  · dsimp only
    rw [receptors]
    exact h.own
  · intro f
    dsimp only
    rw [receptors]
    split <;> exact h.linked f

theorem Agrees.notifyAndReorder (h : Agrees p s x) (e : E) (num : Int) :
    Agrees p { s with events := s.events.ehEventNotifyAndReorder e num }
      (if .epoll p e ∈ s.events.reordered e num then x.reach e false else x) := by
  have queue := h.reach (s.events.ehEventNotifyAndReorder e num) false
    (List.take_sublist num.toNat _)
    (fun r => Events.foldl_notify_flags _ _ r) (Events.foldl_notify_pending _ _ p)
  have perm := fun f => s.events.ehEventNotifyAndReorder_perm e f num
  refine {
    queue with
    wf := h.wf
    sorted := h.sorted
    given := fun f => ?_
    own := ?_
    linked := ?_
    room := h.room }
  · split <;> exact h.given f
  · exact fun mem => h.own ((perm _).subset mem)
  · intro f
    dsimp only
    rw [(perm f).count_eq]
    split <;> exact h.linked f

theorem Agrees.clean (h : Agrees p s x) (e : E) :
    Agrees p { s with events := s.events.ehEventClean e }
      (if x.linked e then { x.reach e true with cleaned := Function.update x.cleaned e true }
        else x) := by
  have queue := h.reach (s.events.ehEventClean e) true
    (List.Sublist.refl _) (fun r => Events.foldl_clean_flags _ _ _ r)
    (Events.foldl_clean_pending _ _ _ p)
  simp only [h.linked_iff] at queue
  have receptors := s.events.ehEventClean_receptors e
  have own : ∀ {f g}, .epoll p g ∈ (s.events.ehEventClean e).receptors f → g = f := by
    intro f g mem
    rw [receptors] at mem
    by_cases eq : f = e
    · subst eq
      simp at mem
    · rw [Function.update_of_ne eq] at mem
      exact h.own mem
  have others : ∀ {f}, f ≠ e →
      ((s.events.ehEventClean e).receptors f).count (.epoll p f) = if x.linked f then 1 else 0 := by
    intro f ne
    rw [receptors, Function.update_of_ne ne]
    exact h.linked f
  have cleaned : ((s.events.ehEventClean e).receptors e).count (.epoll p e) = 0 := by
    simp [receptors]
  split
  · next linked =>
    rw [if_pos linked] at queue
    refine {
      queue with
      wf := h.wf
      sorted := h.sorted
      given := h.given
      own := own
      linked := fun f => ?_
      room := h.room }
    by_cases eq : f = e
    · subst eq
      simpa [Due.linked] using cleaned
    · simpa [Due.linked, Due.reach, eq] using others eq
  · next unlinked =>
    rw [if_neg unlinked] at queue
    refine {
      queue with
      wf := h.wf
      sorted := h.sorted
      given := h.given
      own := own
      linked := fun f => ?_
      room := h.room }
    by_cases eq : f = e
    · subst eq
      simpa [unlinked] using cleaned
    · exact others eq

/-! Reports. -/

/-- Where every pending receptor has a flag, the loop does not break off: it reports the first
ones, as many as there is room for. -/
theorem readPending_spec {l : List E} (ev : Events E T P) {room : Nat} (pos : 0 < room)
    (nodup : l.Nodup) (any : ∀ e ∈ l, (ev.flags (.epoll p e)).any = true)
    (pending : (ev.epoll p).pending = l) :
    (ev.readPending p l room).1 = (l.take room).map
        (fun e => (e, (ev.flags (.epoll p e)).affair)) ∧
      ((ev.readPending p l room).2.epoll p).pending = l.drop room ∧
      (ev.readPending p l room).2.receptors = ev.receptors ∧
      ∀ r, (ev.readPending p l room).2.flags r =
        if r ∈ (l.take room).map (.epoll p) then .clear else ev.flags r := by
  induction l generalizing ev room with
  | nil => simp [Events.readPending, pending]
  | cons e rest ih =>
    obtain ⟨out, nodup'⟩ := List.nodup_cons.mp nodup
    have flagged : ¬ (ev.flags (.epoll p e)).any = false := by
      simp [any e List.mem_cons_self]
    obtain ⟨room, rfl⟩ := Nat.exists_eq_succ_of_ne_zero pos.ne'
    rw [Events.readPending]
    simp only [if_neg flagged]
    by_cases last : room = 0
    · subst last
      refine ⟨by simp, by simp [Events.setEpoll, Events.setFlags], by simp [Events.setEpoll,
        Events.setFlags], fun r => ?_⟩
      by_cases eq : r = .epoll p e
      · simp [Events.setEpoll, Events.setFlags, eq]
      · simp [Events.setEpoll, Events.setFlags, eq]
    · rw [if_neg (by omega)]
      have ahead : ∀ f ∈ rest, (((ev.setEpoll p { ev.epoll p with pending := rest }).setFlags
          (.epoll p e) .clear).flags (.epoll p f)) = ev.flags (.epoll p f) := by
        intro f mem
        have ne : f ≠ e := fun eq => out (eq ▸ mem)
        simp [Events.setEpoll, Events.setFlags, ne]
      obtain ⟨slots, later, receptors, flags⟩ := ih
        ((ev.setEpoll p { ev.epoll p with pending := rest }).setFlags (.epoll p e) .clear)
        (Nat.pos_of_ne_zero last) nodup' (fun f mem => by
          rw [ahead f mem]
          exact any f (List.mem_cons_of_mem _ mem)) (by simp [Events.setEpoll, Events.setFlags])
      refine ⟨?_, later, receptors, fun r => ?_⟩
      · dsimp only
        rw [Nat.succ_sub_one, slots, List.take_succ_cons, List.map_cons]
        congr 1
        apply List.map_congr_left
        intro f mem
        rw [ahead f (List.mem_of_mem_take mem)]
      · rw [Nat.succ_sub_one, flags]
        by_cases eq : r = .epoll p e
        · simp [Events.setEpoll, Events.setFlags, eq]
        · simp [Events.setEpoll, Events.setFlags, eq]

theorem Agrees.read (h : Agrees p s x) {n : Nat} (pos : 0 < n) :
    (s.read p n).1 = x.report n ∧ Agrees p (s.read p n).2 (x.reported n) := by
  have any : ∀ e ∈ x.events, (s.events.flags (.epoll p e)).any = true := by
    intro e mem
    obtain ⟨y, due, rfl⟩ := List.mem_map.mp mem
    exact (h.queued y due).2
  obtain ⟨slots, pending, receptors, flags⟩ := readPending_spec _ pos h.nodup any h.pending
  rw [← h.pending] at slots pending receptors flags
  have split : x.events = (x.queue.take n).map Prod.fst ++ (x.queue.drop n).map Prod.fst := by
    rw [← List.map_append, List.take_append_drop, Due.events]
  have drop : (x.reported n).events = (x.queue.drop n).map Prod.fst := rfl
  have take : x.events.take n = (x.queue.take n).map Prod.fst := by
    rw [Due.events, List.map_take]
  have apart := h.nodup
  rw [split, List.nodup_append] at apart
  constructor
  · rw [Epoll.read, Events.ehEpollPendingReadOnLock]
    dsimp only
    rw [slots, h.pending, take, Due.report, List.map_map, List.map_map]
    apply List.map_congr_left
    intro y mem
    have due := List.mem_of_mem_take mem
    obtain ⟨error, flagged⟩ := h.queued y due
    have node := h.registered y.1 (List.mem_map_of_mem due)
    have userdata : (x.given y.1).join = s.userdata y.1 := by
      rw [h.given, if_pos node]
      rfl
    have affair : (s.events.flags (.epoll p y.1)).affair =
        if y.2 then .error else .eventTrigger := by
      rw [Flags.affair, error]
      split
      · rfl
      · next fine =>
        rw [Flags.any, error, Bool.eq_false_iff.mpr fine, Bool.or_false] at flagged
        rw [if_pos flagged]
    simp only [Function.comp_apply, userdata, affair]
  · have flags' : ∀ f, ((s.read p n).2.events.flags (.epoll p f)) =
        if f ∈ x.events.take n then .clear else s.events.flags (.epoll p f) := by
      intro f
      have mem : .epoll p f ∈ ((s.events.epoll p).pending.take n).map
          (Receptor.epoll (T := T) p) ↔ f ∈ x.events.take n := by
        rw [h.pending, List.mem_map]
        constructor
        · rintro ⟨g, mem, eq⟩
          cases eq
          exact mem
        · exact fun mem => ⟨f, mem, rfl⟩
      exact (flags (.epoll p f)).trans (if_congr mem rfl rfl)
    have pending' : ((s.read p n).2.events.epoll p).pending = (x.reported n).events := by
      rw [drop, List.map_drop]
      refine pending.trans ?_
      rw [h.pending]
      rfl
    have receptors' : (s.read p n).2.events.receptors = s.events.receptors := receptors
    constructor
    · constructor
      · exact pending'
      · rw [drop]
        exact apart.2.1
      · intro e mem
        rw [drop] at mem
        apply h.registered e
        rw [split]
        exact List.mem_append_right _ mem
      · intro y mem
        have out : y.1 ∉ x.events.take n := by
          rw [take]
          exact fun early => apart.2.2 _ early _ (List.mem_map_of_mem mem) rfl
        rw [flags', if_neg out]
        exact h.queued y (List.mem_of_mem_drop mem)
      · intro e node out
        rw [flags']
        by_cases early : e ∈ x.events.take n
        · rw [if_pos early]
        · rw [if_neg early]
          apply h.idle e node
          rw [split, List.mem_append, ← take]
          rintro (now | later)
          · exact early now
          · exact out later
    · exact h.wf
    · exact h.sorted
    · exact h.given
    · rw [receptors']
      exact h.own
    · rw [receptors']
      exact h.linked
    · exact h.room

/-! The tree. -/

theorem epollRbtreeMatch_eq {e f : E} : epollRbtreeMatch e f = .eq ↔ f = e := by
  rw [epollRbtreeMatch]
  split
  · next lt => simp [ne_of_gt lt]
  · split
    · next gt => simp [ne_of_lt gt]
    · next not not' => simpa using le_antisymm (not_lt.mp not) (not_lt.mp not')

theorem epollRbtreeMatch_lt {e f : E} : epollRbtreeMatch e f = .lt ↔ e < f := by
  rw [epollRbtreeMatch]
  split
  · next lt => simp [lt]
  · next not => split <;> simp [not]

theorem epollRbtreeMatch_gt {e f : E} : epollRbtreeMatch e f = .gt ↔ f < e := by
  rw [epollRbtreeMatch]
  split
  · next lt => simp [lt.le]
  · split
    · next gt => simp [gt]
    · next not => simp [not]

theorem ordered_of_sorted {l : List E} (sorted : l.Pairwise (· < ·)) (e : E) :
    Root.Ordered (epollRbtreeMatch e) l := by
  refine sorted.imp fun {a b} lt => ⟨fun gt => ?_, fun less => ?_⟩
  · exact epollRbtreeMatch_gt.mpr (lt.trans (epollRbtreeMatch_gt.mp gt))
  · exact epollRbtreeMatch_lt.mpr ((epollRbtreeMatch_lt.mp less).trans lt)

theorem Agrees.find (h : Agrees p s x) (e : E) :
    s.allReceptorTree.ehRbMatchFind (epollRbtreeMatch e) =
      if e ∈ s.allReceptorTree.nodes then some e else none := by
  cases found : s.allReceptorTree.ehRbMatchFind (epollRbtreeMatch e) with
  | none =>
    rw [if_neg]
    intro mem
    exact Root.ehRbMatchFind_none (ordered_of_sorted h.sorted e) found e mem
      (epollRbtreeMatch_eq.mpr rfl)
  | some f =>
    obtain ⟨mem, eq⟩ := Root.ehRbMatchFind_some found
    obtain rfl := epollRbtreeMatch_eq.mp eq
    rw [if_pos mem]

theorem Agrees.register (h : Agrees p s x) {e : E} {userdata : Option D} {tree : Root E}
    {before after : List E} (wf : tree.Wf) (out : e ∉ s.allReceptorTree.nodes)
    (nodes : s.allReceptorTree.nodes = before ++ after)
    (nodes' : tree.nodes = before ++ e :: after)
    (less : ∀ f ∈ before, f < e) (greater : ∀ f ∈ after, e < f) :
    Agrees p { s with
      allReceptorTree := tree
      events := (s.events.setFlags (.epoll p e) .clear).addReceptor e (.epoll p e)
      userdata := Function.update s.userdata e userdata } (x.register e userdata) := by
  have mem : ∀ f, f ∈ tree.nodes ↔ f = e ∨ f ∈ s.allReceptorTree.nodes := by
    intro f
    rw [nodes, nodes', List.mem_append, List.mem_cons, List.mem_append]
    tauto
  have elsewhere : ∀ f, f ≠ e →
      ((s.events.setFlags (.epoll p e) .clear).addReceptor e (.epoll p e)).flags (.epoll p f) =
        s.events.flags (.epoll p f) := by
    intro f ne
    simp [Events.addReceptor, Events.setFlags, ne]
  have sorted := h.sorted
  rw [nodes, List.pairwise_append] at sorted
  have ne_of_mem : ∀ f ∈ s.allReceptorTree.nodes, f ≠ e := fun f node eq => out (eq ▸ node)
  constructor
  · constructor
    · exact h.pending
    · exact h.nodup
    · exact fun f due => (mem f).mpr (.inr (h.registered f due))
    · intro y due
      rw [elsewhere y.1 (ne_of_mem y.1 (h.registered y.1 (List.mem_map_of_mem due)))]
      exact h.queued y due
    · intro f node due
      rcases (mem f).mp node with rfl | old
      · simp [Events.addReceptor, Events.setFlags]
      · rw [elsewhere f (ne_of_mem f old)]
        exact h.idle f old due
  · exact wf
  · dsimp only
    rw [nodes', List.pairwise_append, List.pairwise_cons]
    refine ⟨sorted.1, ⟨greater, sorted.2.1⟩, fun a memA b memB => ?_⟩
    rcases List.mem_cons.mp memB with rfl | later
    · exact less a memA
    · exact sorted.2.2 a memA b later
  · intro f
    dsimp only [Due.register]
    by_cases eq : f = e
    · subst eq
      rw [Function.update_self, Function.update_self, if_pos ((mem f).mpr (.inl rfl))]
    · rw [Function.update_of_ne eq, Function.update_of_ne eq, h.given]
      exact if_congr (by rw [mem, or_iff_right eq]) rfl rfl
  · intro f g mem
    by_cases eq : f = e
    · subst eq
      simp only [Events.addReceptor, Function.update_self, List.mem_append,
        List.mem_singleton] at mem
      rcases mem with old | new
      · exact h.own old
      · cases new
        rfl
    · simp only [Events.addReceptor, Function.update_of_ne eq] at mem
      exact h.own mem
  · intro f
    have count := h.linked f
    by_cases eq : f = e
    · subst eq
      have unlinked : x.linked f = false := by rw [Due.linked, h.given, if_neg out]; rfl
      rw [unlinked] at count
      simpa [Events.addReceptor, Events.setFlags, Due.linked, Due.register] using count
    · simpa [Events.addReceptor, Events.setFlags, Due.linked, Due.register, eq] using count
  · exact h.room

/-- An add registers the event if it is new and there is memory for its receptor; otherwise it
changes nothing. -/
theorem Agrees.add (h : Agrees p s x) (e : E) (userdata : Option D) (memory : Bool) :
    ∃ ret s', s.ehEpollAddEvent p e userdata memory = some (ret, s') ∧
      (ret ≠ ehRetOk → s' = s) ∧
      Agrees p s' (if (x.given e).isNone && memory then x.register e userdata else x) := by
  have given := h.given e
  rw [Epoll.ehEpollAddEvent, h.find]
  rcases Root.ehRbFindNewAdd_spec h.wf (ordered_of_sorted h.sorted e)
    (if memory then some e else none) with ⟨f, mem, eq, run⟩ | ⟨new, run⟩
  · obtain rfl := epollRbtreeMatch_eq.mp eq
    rw [run, if_pos mem]
    rw [if_pos mem] at given
    refine ⟨ehRetExists, s, rfl, fun _ => rfl, ?_⟩
    simpa [given] using h
  · have out : e ∉ s.allReceptorTree.nodes := fun mem => new e mem (epollRbtreeMatch_eq.mpr rfl)
    rw [if_neg out] at given
    cases memory with
    | false =>
      simp only [Bool.false_eq_true, if_false] at run ⊢
      rw [run, if_neg out]
      refine ⟨ehRetMallocError, s, rfl, fun _ => rfl, ?_⟩
      simpa using h
    | true =>
      simp only [if_true] at run ⊢
      obtain ⟨tree, before, after, run, wf, nodes, nodes', less, greater⟩ := run
      rw [run, if_neg out]
      refine ⟨ehRetOk, _, rfl, fun ne => absurd rfl ne, ?_⟩
      rw [given]
      exact h.register wf out nodes nodes' (fun f mem => epollRbtreeMatch_gt.mp (less f mem))
        fun f mem => epollRbtreeMatch_lt.mp (greater f mem)

omit [DecidableEq T] [DecidableEq P] in
theorem Due.events_forget (x : Due E D) (e : E) (nodup : x.events.Nodup) :
    (x.forget e).events = x.events.erase e := by
  rw [nodup.erase_eq_filter, Due.events, Due.events, Due.forget, List.filter_map]
  congr 1
  refine List.filter_congr fun y _ => ?_
  by_cases eq : y.1 = e <;> simp [eq]

theorem Agrees.del (h : Agrees p s x) (e : E) :
    ∃ ret s', s.ehEpollDelEvent p e = some (ret, s') ∧ Agrees p s' (x.forget e) := by
  rw [Epoll.ehEpollDelEvent, h.find]
  by_cases mem : e ∈ s.allReceptorTree.nodes
  · have nodup : s.allReceptorTree.nodes.Nodup := h.sorted.imp fun lt => lt.ne
    obtain ⟨tree, before, after, run, wf, nodes, nodes'⟩ := Root.ehRbDel_spec h.wf nodup mem
    rw [if_pos mem]
    simp only [run]
    refine ⟨ehRetOk, _, rfl, ?_⟩
    rw [nodes, List.nodup_append, List.nodup_cons] at nodup
    have left : ∀ f, f ∈ tree.nodes ↔ f ∈ s.allReceptorTree.nodes ∧ f ≠ e := by
      intro f
      rw [nodes, nodes', List.mem_append, List.mem_append, List.mem_cons]
      have notBefore : f ∈ before → f ≠ e := fun inB =>
        nodup.2.2 f inB e List.mem_cons_self
      have notAfter : f ∈ after → f ≠ e := fun inA eq => nodup.2.1.1 (eq ▸ inA)
      tauto
    have events := x.events_forget e h.nodup
    have due : ∀ f, f ∈ (x.forget e).events ↔ f ≠ e ∧ f ∈ x.events := by
      intro f
      rw [events, h.nodup.mem_erase_iff]
    constructor
    · constructor
      · simp [Events.setEpoll, events, h.pending]
      · rw [events]
        exact h.nodup.erase e
      · intro f mem
        obtain ⟨ne, old⟩ := (due f).mp mem
        exact (left f).mpr ⟨h.registered f old, ne⟩
      · exact fun y mem => h.queued y (List.mem_of_mem_filter mem)
      · intro f node out
        obtain ⟨old, ne⟩ := (left f).mp node
        exact h.idle f old fun mem => out ((due f).mpr ⟨ne, mem⟩)
    · exact wf
    · refine List.Pairwise.sublist ?_ h.sorted
      rw [nodes, nodes']
      exact (List.Sublist.refl before).append (List.sublist_cons_self e after)
    · intro f
      dsimp only [Due.forget]
      by_cases eq : f = e
      · subst eq
        rw [Function.update_self, if_neg fun node => ((left f).mp node).2 rfl]
      · rw [Function.update_of_ne eq, h.given]
        exact if_congr (by rw [left, and_iff_left eq]) rfl rfl
    · intro f g mem
      by_cases eq : f = e
      · subst eq
        simp only [Events.setEpoll, Events.removeReceptor, Function.update_self] at mem
        exact h.own (List.mem_of_mem_erase mem)
      · simp only [Events.setEpoll, Events.removeReceptor, Function.update_of_ne eq] at mem
        exact h.own mem
    · intro f
      have count := h.linked f
      by_cases eq : f = e
      · subst eq
        simp only [Events.setEpoll, Events.removeReceptor, Function.update_self,
          List.count_erase_self, count]
        split <;> simp [Due.linked, Due.forget]
      · simpa [Events.setEpoll, Events.removeReceptor, Due.linked, Due.forget, eq] using count
    · exact h.room
  · rw [if_neg mem]
    refine ⟨ehRetNotExists, s, rfl, ?_⟩
    have same : x.forget e = x := by
      have given := h.given e
      rw [if_neg mem] at given
      have queue : x.queue.filter (fun y => y.1 ≠ e) = x.queue := by
        apply List.filter_eq_self.mpr
        intro y due
        have ne : y.1 ≠ e := fun eq => mem (eq ▸ h.registered y.1 (List.mem_map_of_mem due))
        simpa using ne
      rw [Due.forget, queue, ← given, Function.update_eq_self]
    rw [same]
    exact h

/-! The steps. -/

theorem Agrees.others (h : Agrees p s x) {events : Events E T P}
    (flags : events.flags = s.events.flags) (epoll : events.epoll = s.events.epoll)
    (own : ∀ e f, (events.receptors e).count (.epoll p f) =
      (s.events.receptors e).count (.epoll p f)) : Agrees p { s with events := events } x := by
  constructor
  · exact ⟨epoll ▸ h.pending, h.nodup, h.registered, flags ▸ h.queued, flags ▸ h.idle⟩
  · exact h.wf
  · exact h.sorted
  · exact h.given
  · intro e f mem
    apply h.own
    rw [← List.count_pos_iff, ← own, List.count_pos_iff]
    exact mem
  · intro e
    exact (own e e).trans (h.linked e)
  · exact h.room

theorem Agrees.returns (h : Agrees p s x) {waiting : Option EpollWait}
    (room : ∀ w, waiting = some w → 0 < w.slotSize)
    (returned : List (Int × List (EpollSlot E D))) :
    Agrees p { s with waiting := waiting, returned := returned } x :=
  ⟨⟨h.pending, h.nodup, h.registered, h.queued, h.idle⟩, h.wf, h.sorted, h.given, h.own, h.linked,
    room⟩

theorem Agrees.step (h : Agrees p s x) {l : EpollLabel E T P D} {s' : Epoll E T P D}
    (step : s.step p l = some s') : Agrees p s' (x.step p s l) := by
  cases l with
  | add e userdata memory =>
    obtain ⟨ret, s₁, run, -, ok⟩ := h.add e userdata memory
    rw [Epoll.step, run] at step
    cases step
    exact ok
  | del e =>
    obtain ⟨ret, s₁, run, ok⟩ := h.del e
    rw [Epoll.step, run] at step
    cases step
    exact ok
  | notify e =>
    cases step
    exact h.notify e
  | notifyAndReorder e num =>
    cases step
    exact h.notifyAndReorder e num
  | clean e =>
    cases step
    exact h.clean e
  | wait slotSize timeout =>
    rw [Epoll.step] at step
    split at step
    · next entry =>
      cases step
      obtain ⟨-, ok⟩ := h.read entry.2
      rw [Epoll.ehEpollWait, Due.step]
      split
      · exact h.returns (fun w eq => by cases eq; exact entry.2) _
      · exact ok.returns ok.room _
    · cases step
  | pass =>
    rw [Epoll.step] at step
    obtain ⟨w, at_, rfl⟩ := Option.map_eq_some_iff.mp step
    obtain ⟨-, ok⟩ := h.read (h.room w at_)
    rw [Due.step, at_, Option.map_some, Option.getD_some, Epoll.pass]
    dsimp only
    split
    · exact ok.returns (fun w eq => by cases eq) _
    · split
      · exact ok.returns (fun w eq => by cases eq) _
      · exact ok
  | expire =>
    rw [Epoll.step] at step
    split at step
    · next w at_ =>
      split at step
      · cases step
        exact h.returns (fun w' eq => by cases eq; exact h.room w at_) _
      · cases step
    · cases step
  | link e r =>
    rw [Epoll.step] at step
    split at step
    · cases step
    · next other =>
      cases step
      refine h.others rfl rfl fun f g => ?_
      have ne : r ≠ .epoll p g := by
        rintro rfl
        simp [Receptor.isOf] at other
      by_cases eq : f = e
      · subst eq
        simp [Events.addReceptor, ne]
      · simp [Events.addReceptor, eq]
  | unlink e r =>
    rw [Epoll.step] at step
    split at step
    · cases step
    · next other =>
      cases step
      refine h.others rfl rfl fun f g => ?_
      have ne : r ≠ .epoll p g := by
        rintro rfl
        simp [Receptor.isOf] at other
      by_cases eq : f = e
      · subst eq
        simp [Events.removeReceptor, List.count_erase, ne]
      · simp [Events.removeReceptor, eq]

end EventHub.Event
