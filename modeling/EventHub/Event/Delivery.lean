import EventHub.Event.Due

/-! Every event that reaches an epoll is reported once, in order. -/

namespace EventHub.Event
open Library RbTree Kernel

variable {E T P D : Type} [LinearOrder E] [DecidableEq T] [DecidableEq P] {p : P}

def Tracked (p : P) (a : Epoll E T P D × Due E D) (l : EpollLabel E T P D)
    (b : Epoll E T P D × Due E D) : Prop :=
  a.1.step p l = some b.1 ∧ b.2 = a.2.step p a.1 l

def tracked (p : P) (a : Epoll E T P D × Due E D) (l : EpollLabel E T P D) :
    Option (Epoll E T P D × Due E D) :=
  (a.1.step p l).map fun s => (s, a.2.step p a.1 l)

theorem tracked_iff {a b : Epoll E T P D × Due E D} {l : EpollLabel E T P D} :
    tracked p a l = some b ↔ Tracked p a l b := by
  rw [tracked, Tracked, Option.map_eq_some_iff]
  constructor
  · rintro ⟨s, step, rfl⟩
    exact ⟨step, rfl⟩
  · rintro ⟨step, eq⟩
    exact ⟨b.1, step, Prod.ext rfl eq.symm⟩

theorem agrees_init : Agrees p (Epoll.init : Epoll E T P D) Due.init := by
  constructor
  · exact ⟨rfl, List.nodup_nil, by simp [Due.events, Due.init], by simp [Due.init],
      fun e mem => absurd mem List.not_mem_nil⟩
  · exact Root.init_wf
  · exact List.Pairwise.nil
  · simp [Due.init, Epoll.init, Root.nodes_init]
  · intro e f mem
    exact absurd mem List.not_mem_nil
  · simp [Epoll.init, Due.linked, Due.init]
  · intro w eq
    cases eq

theorem agrees_run {ls : List (EpollLabel E T P D)} {s : Epoll E T P D} {x : Due E D}
    (run : Run (Tracked p) (.init, .init) ls (s, x)) : Agrees p s x := by
  refine run.invariant (I := fun a => Agrees p a.1 a.2) ?_ agrees_init
  rintro ⟨s, x⟩ l ⟨s', x'⟩ ok ⟨step, rfl⟩
  exact ok.step step

omit [LinearOrder E] in
theorem Due.length_report (x : Due E D) (n : Nat) :
    (x.report n).length = min n x.events.length := by
  simp [Due.report, Due.events]

/-- The pending list is what is due, and a read returns the first of it. -/
theorem ehEpoll_delivers (p : P) (ls : List (EpollLabel E T P D)) (s : Epoll E T P D)
    (x : Due E D) (run : Run (Tracked p) (.init, .init) ls (s, x)) :
    ((s.events.epoll p).pending = x.events ∧ x.events.Nodup) ∧
    (∀ e ∈ (s.events.epoll p).pending, (s.events.flags (.epoll p e)).any = true) ∧
    (∀ e, (e ∈ s.allReceptorTree.nodes ↔ (x.given e).isSome = true) ∧
      (e ∈ x.events → (x.given e).isSome = true)) ∧
    (s.allReceptorTree.nodes.Nodup ∧ ∀ e f, (s.events.receptors e).count (.epoll p f) =
      if f = e ∧ x.linked e = true then 1 else 0) ∧
    (∀ n, 0 < n → (s.read p n).1 = x.report n ∧
      (x.report n).length = min n (s.events.epoll p).pending.length ∧
      ((s.read p n).2.events.epoll p).pending = x.events.drop n) ∧
    (∀ w, s.waiting = some w → x.events ≠ [] →
      (s.pass p w).waiting = none ∧ (s.pass p w).returned =
        s.returned ++ [(((x.report w.slotSize).length : Int), x.report w.slotSize)]) ∧
    (∀ n timeout, 0 < n → timeout ≠ ehTimeForever → timeout ≤ 0 →
      (s.ehEpollWait p n timeout).returned = s.returned ++
        [(if x.events = [] then ehRetTimeout else ((x.report n).length : Int), x.report n)]) ∧
    (∀ e userdata memory, ∃ ret s', s.ehEpollAddEvent p e userdata memory = some (ret, s') ∧
      (ret ≠ ehRetOk → s' = s)) ∧
    (∀ e, ∃ ret s', s.ehEpollDelEvent p e = some (ret, s')) := by
  have ok := agrees_run run
  refine ⟨⟨ok.pending, ok.nodup⟩, ?_, ?_, ⟨?_, ?_⟩, ?_, ?_, ?_, ?_, ?_⟩
  · intro e mem
    rw [ok.pending] at mem
    obtain ⟨y, due, rfl⟩ := List.mem_map.mp mem
    exact (ok.queued y due).2
  · intro e
    have node : e ∈ s.allReceptorTree.nodes ↔ (x.given e).isSome = true := by
      rw [ok.given]
      split <;> simp [*]
    exact ⟨node, fun due => node.mp (ok.registered e due)⟩
  · exact ok.sorted.imp fun lt => lt.ne
  · intro e f
    by_cases eq : f = e
    · subst eq
      simp [ok.linked]
    · rw [if_neg fun both => eq both.1, List.count_eq_zero]
      exact fun mem => eq (ok.own mem)
  · intro n pos
    obtain ⟨slots, ok'⟩ := ok.read pos
    refine ⟨slots, ?_, ?_⟩
    · rw [ok.pending]
      exact x.length_report n
    · rw [ok'.pending, Due.events, Due.reported, List.map_drop]
      rfl
  · intro w at_ due
    have pos := ok.room w at_
    obtain ⟨slots, -⟩ := ok.read pos
    have some : (x.report w.slotSize).length ≠ 0 := by
      have pos' := List.length_pos_iff.mpr due
      rw [x.length_report]
      omega
    rw [Epoll.pass]
    dsimp only
    rw [slots, if_pos some]
    exact ⟨rfl, rfl⟩
  · intro n timeout pos ne le
    obtain ⟨slots, -⟩ := ok.read pos
    have poll : ¬ (timeout = ehTimeForever ∨ 0 < timeout) := by
      rintro (forever | later)
      · exact ne forever
      · omega
    have empty : (x.report n).length = 0 ↔ x.events = [] := by
      rw [x.length_report, ← List.length_eq_zero_iff]
      omega
    rw [Epoll.ehEpollWait, if_neg poll]
    dsimp only
    rw [slots, if_congr empty rfl rfl]
    rfl
  · intro e userdata memory
    obtain ⟨ret, s', add, kept, -⟩ := ok.add e userdata memory
    exact ⟨ret, s', add, kept⟩
  · intro e
    obtain ⟨ret, s', del, -⟩ := ok.del e
    exact ⟨ret, s', del⟩

/-- Two events are notified and a third one is cleaned; the two that came first are fetched. -/
def twoSlots : List (EpollLabel Nat Unit Unit Nat) :=
  [.add 1 (some 10) true, .add 2 (some 20) true, .add 3 none true, .notify 2, .clean 3, .notify 1,
    .notify 2, .wait 2 0]

theorem twoSlots_runs : (twoSlots.foldlM (tracked ()) (.init, .init)).isSome = true := rfl

theorem ehEpoll_delivers_two :
    let a := (twoSlots.foldlM (tracked ()) (.init, .init)).get twoSlots_runs
    a.1.returned = [(2, [⟨2, some 20, .eventTrigger⟩, ⟨3, none, .error⟩])] ∧
    (a.1.events.epoll ()).pending = [1] ∧
    (a.1.read () 1).1 = a.2.report 1 ∧ a.2.report 1 = [⟨1, some 10, .eventTrigger⟩] := by
  have delivers := ehEpoll_delivers () twoSlots _ _
    ((Run.of_foldlM_some (Option.some_get twoSlots_runs).symm).imp tracked_iff.mp)
  exact ⟨by decide +kernel, by decide +kernel, (delivers.2.2.2.2.1 1 (by decide)).1,
    by decide +kernel⟩

end EventHub.Event
