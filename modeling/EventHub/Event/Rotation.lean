import EventHub.Event.Wires
import EventHub.Library.Laps
import EventHub.Library.Transition

/-! `eh_event_notify_and_reorder` on the pointers of the receptor list: what it leaves there,
and whose turn it is in a row of such calls. -/

namespace EventHub.Event
open Library

structure EventMem (E T P : Type) where
  links : Links (WireNode E T P)
  flags : Receptor E T P → Flags
  epoll : P → EhEpoll E T

namespace EventMem
variable {E T P : Type} [DecidableEq E] [DecidableEq T] [DecidableEq P]

def events (m : EventMem E T P) (f : E → List (Receptor E T P)) : Events E T P :=
  ⟨f, m.flags, m.epoll⟩

/-- `pos->trigger = 1` and `_eh_event_trigger_receptor_no_lock`, up to the wake-up. -/
def notifyReceptor (m : EventMem E T P) (r : Receptor E T P) : EventMem E T P :=
  { m with
    flags := Function.update m.flags r { m.flags r with trigger := true }
    epoll := match r with
      | .epoll p e =>
        Function.update m.epoll p { m.epoll p with pending := pend (m.epoll p).pending e }
      | .wait _ | .timer _ => m.epoll }

/-- The loop of `eh_event_notify_and_reorder` from `pos` on, with `last_receptor_node` so far:
the memory, `last_receptor_node` and the receptors it has triggered. -/
def notifyLoop (e : E) (num : Int) : Nat → Int → WireNode E T P → Option (WireNode E T P) →
    EventMem E T P → Option (EventMem E T P × Option (WireNode E T P) × List (Receptor E T P))
  | 0, _, _, _, _ => none
  | fuel + 1, i, pos, last, m =>
    if pos = .head e then some (m, last, [])
    else match pos with
      | .head _ => none
      | .receptor r =>
        let m := m.notifyReceptor r
        let i := i + 1
        if num ≤ i then some (m, some (.receptor r), [r])
        else (notifyLoop e num fuel i (m.links.next (.receptor r)) (some (.receptor r)) m).map
          fun (m, last, triggered) => (m, last, r :: triggered)

/-- The memory after the call and the receptors it has triggered. -/
def ehEventNotifyAndReorder (fuel : Nat) (e : E) (num : Int) (m : EventMem E T P) :
    Option (EventMem E T P × List (Receptor E T P)) :=
  if num ≤ 0 then some (m, [])
  else (m.notifyLoop e num fuel 0 (m.links.next (.head e)) none).map
    fun (m, last, triggered) => match last with
      | none => (m, triggered)
      | some node => ({ m with links := m.links.move (.head e) node }, triggered)

/-- A call, or what other code does to the flags and the epolls, and to other lists. The
receptors are `l`, in any order. -/
inductive Turn (e : E) (l : List (Receptor E T P)) :
    EventMem E T P → List (Receptor E T P) → EventMem E T P → Prop
  | call {m m' : EventMem E T P} {fuel : Nat} {num : Int} {triggered : List (Receptor E T P)} :
      1 ≤ num → num ≤ l.length → l.length < fuel →
      m.ehEventNotifyAndReorder fuel e num = some (m', triggered) → Turn e l m triggered m'
  | other {m m' : EventMem E T P} :
      m'.links.Agree m.links (· ∈ WireNode.head e :: l.map .receptor) → Turn e l m [] m'

variable {m : EventMem E T P} {e : E} {l : List (Receptor E T P)} {num : Int} {fuel : Nat}

theorem events_notifyReceptor (m : EventMem E T P) (r : Receptor E T P)
    (f : E → List (Receptor E T P)) :
    (m.notifyReceptor r).events f = (m.events f).notifyReceptor r := by
  cases r <;> rfl

theorem events_foldl (rs : List (Receptor E T P)) (m : EventMem E T P)
    (f : E → List (Receptor E T P)) :
    (rs.foldl notifyReceptor m).events f = rs.foldl Events.notifyReceptor (m.events f) := by
  induction rs generalizing m with
  | nil => rfl
  | cons r rs ih => rw [List.foldl_cons, ih, events_notifyReceptor, List.foldl_cons]

@[simp] theorem foldl_links (rs : List (Receptor E T P)) (m : EventMem E T P) :
    (rs.foldl notifyReceptor m).links = m.links := by
  induction rs generalizing m with
  | nil => rfl
  | cons r rs ih => exact ih (m.notifyReceptor r)

theorem notifyLoop_run {k : Nat} {i : Int} {a : WireNode E T P} {last : Option (WireNode E T P)}
    (seg : m.links.Seg a (l.map .receptor) (.head e)) (left : i + (k + 1) = num)
    (enough : l.length < fuel) :
    m.notifyLoop e num fuel i (m.links.next a) last = some ((l.take (k + 1)).foldl notifyReceptor m,
      ((l.take (k + 1)).getLast?.map WireNode.receptor).or last, l.take (k + 1)) := by
  obtain ⟨fuel, rfl⟩ := Nat.exists_eq_succ_of_ne_zero (Nat.ne_of_gt (Nat.zero_lt_of_lt enough))
  induction l generalizing k i a last m fuel with
  | nil =>
    rw [show m.links.next a = .head e from seg.1, notifyLoop, if_pos rfl]
    rfl
  | cons r l ih =>
    obtain ⟨next, -, rest⟩ := seg
    rw [next, notifyLoop, if_neg (by simp)]
    cases k with
    | zero =>
      simp only [if_pos (show num ≤ i + 1 by omega)]
      rfl
    | succ k =>
      obtain ⟨rounds, rfl⟩ : ∃ n, fuel = n + 1 :=
        Nat.exists_eq_succ_of_ne_zero (by simp at enough; omega)
      push_cast at left
      simp only [if_neg (show ¬num ≤ i + 1 by omega)]
      rw [ih (m := m.notifyReceptor r) (k := k) rest (by omega) rounds (by simpa using enough)]
      simp [List.getLast?_cons]

theorem ehEventNotifyAndReorder_run {k : Nat}
    (ring : m.links.Ring (.head e :: l.map .receptor)) (pos : num = k + 1)
    (enough : l.length < fuel) :
    ∃ m', m.ehEventNotifyAndReorder fuel e num = some (m', l.take (k + 1)) ∧
      m'.links.Ring (.head e :: (l.drop (k + 1) ++ l.take (k + 1)).map .receptor) ∧
      m'.links.Agree m.links (· ∉ WireNode.head e :: l.map .receptor) ∧
      ∀ f, m'.events f = (l.take (k + 1)).foldl Events.notifyReceptor (m.events f) := by
  have total : 0 + ((k : Int) + 1) = num := by omega
  rw [ehEventNotifyAndReorder, if_neg (by omega), notifyLoop_run ring.2 total enough]
  have whole := List.take_append_drop (k + 1) l
  rcases List.eq_nil_or_concat' (l.take (k + 1)) with empty | ⟨before, r, split⟩
  · rw [empty, List.nil_append] at whole
    rw [empty, whole, List.append_nil]
    exact ⟨m, rfl, ring, fun y _ => ⟨rfl, rfl⟩, fun f => rfl⟩
  · rw [split, List.append_assoc, List.singleton_append] at whole
    have last : ((before ++ [r]).getLast?.map (WireNode.receptor (E := E))).or none =
        some (.receptor r) := by
      simp
    have rings : Rings m.links fun _ : Unit => WireNode.head e :: l.map .receptor :=
      ⟨fun _ => ring, fun _ _ => rfl⟩
    have at_l : WireNode.head e :: l.map .receptor = .head e :: (before.map .receptor ++
        .receptor r :: (l.drop (k + 1)).map .receptor) := by
      conv_lhs => rw [← whole]
      simp
    have moved := (rings.moveHead (i := ()) at_l).ring ()
    have outside := rings.moveHead_agree (i := ()) at_l
    rw [Function.update_self] at moved
    rw [split, last]
    refine ⟨_, rfl, ?_, ?_, fun f => events_foldl _ m f⟩
    · simpa only [foldl_links, List.map_append, List.map_singleton] using moved
    · simpa only [foldl_links] using outside

theorem ehEventNotifyAndReorder_refines {f : E → List (Receptor E T P)}
    (wires : Wires m.links f) (num : Int) (enough : (f e).length < fuel) :
    ∃ m' f', m.ehEventNotifyAndReorder fuel e num = some (m', (m.events f).reordered e num) ∧
      Wires m'.links f' ∧ m'.events f' = (m.events f).ehEventNotifyAndReorder e num := by
  rcases Int.lt_or_le 0 num with pos | low
  · obtain ⟨k, rfl⟩ : ∃ k : ℕ, num = k + 1 := ⟨num.toNat - 1, by omega⟩
    obtain ⟨m', run, ring, outside, same⟩ :=
      ehEventNotifyAndReorder_run (wires.rings.ring e) rfl enough
    let f' := ((m.events f).ehEventNotifyAndReorder e (k + 1)).receptors
    have lists : f' = Function.update f e ((f e).drop (k + 1) ++ (f e).take (k + 1)) := rfl
    have nodes : ∀ y ∈ WireNode.head e :: ((f e).drop (k + 1) ++ (f e).take (k + 1)).map .receptor,
        y ∈ wireNodes f e := by
      intro y mem
      simp only [wireNodes, List.mem_cons, List.mem_map, List.mem_append] at mem ⊢
      rcases mem with eq | ⟨r, mem | mem, eq⟩
      · exact .inl eq
      · exact .inr ⟨r, List.mem_of_mem_drop mem, eq⟩
      · exact .inr ⟨r, List.mem_of_mem_take mem, eq⟩
    refine ⟨m', f', run, ⟨?_, fun r out => ?_⟩, ?_⟩
    · rw [lists, ← wireNodes_update]
      refine wires.rings.replace ring (fun j ne y mem => outside y fun mem' => ?_) fun y mem =>
        .inl (nodes y mem)
      exact ne (wires.rings.disjoint mem mem')
    · have free : ∀ x, r ∉ f x := by
        intro x mem
        exact out x ((Events.ehEventNotifyAndReorder_perm (m.events f) e x (k + 1)).mem_iff.mpr mem)
      obtain ⟨next, prev⟩ := outside (.receptor r) (receptor_mem_wireNodes.not.mpr (free e))
      rw [next, prev]
      exact wires.alone r free
    · exact congrArg (fun ev : Events E T P => { ev with receptors := f' }) (same f)
  · have none : num.toNat = 0 := by omega
    refine ⟨m, f, ?_, wires, ?_⟩
    · rw [ehEventNotifyAndReorder, if_pos low, Events.reordered, none, List.take_zero]
    · simp [Events.ehEventNotifyAndReorder, Events.reordered, none, events]

theorem level_run {m' : EventMem E T P} {turns : List (List (Receptor E T P))}
    (ring : m.links.Ring (.head e :: l.map .receptor)) (run : Run (Turn e l) m turns m') :
    ∃ j, m'.links.Ring (.head e :: (l.rotate j).map .receptor) ∧
      Level (fun r => turns.flatten.count r) (l.rotate j) := by
  induction run with
  | nil => exact ⟨0, by simpa using ring, by simpa using Level.start l⟩
  | @snoc mid after turns triggered before last ih =>
    obtain ⟨j, ring', level⟩ := ih
    cases last with
    | @call _ fuel num triggered pos le enough step =>
      obtain ⟨k, rfl⟩ : ∃ k : ℕ, num = k + 1 := ⟨num.toNat - 1, by omega⟩
      have short : k + 1 ≤ (l.rotate j).length := by
        rw [List.length_rotate]
        omega
      obtain ⟨m', run, turned, -, -⟩ :=
        ehEventNotifyAndReorder_run ring' rfl (by rwa [List.length_rotate])
      obtain ⟨rfl, rfl⟩ : m' = after ∧ (l.rotate j).take (k + 1) = triggered := by
        simpa using run.symm.trans step
      have nodup : (l.rotate j).Nodup := (List.nodup_cons.mp ring'.nodup).2.of_map _
      refine ⟨j + (k + 1), ?_, ?_⟩
      · rwa [← List.rotate_rotate, List.rotate_eq_drop_append_take short]
      · have next := level.rotate nodup short
        rw [List.rotate_rotate] at next
        simpa using next
    | other same =>
      refine ⟨j, ring'.congr fun y mem => same y ?_, by simpa using level⟩
      simpa using mem

/-- A call rotates the receptor list, at most once around, and triggers the receptors that go
behind. In a row of calls, each with `num` no more than there are receptors, the numbers of times
that two of them are triggered differ by one at most. -/
theorem notifyAndReorder_rotates (ring : m.links.Ring (.head e :: l.map .receptor)) :
    (∀ num fuel k, 1 ≤ num → l.length < fuel → k = min num.toNat l.length →
      ∃ m', m.ehEventNotifyAndReorder fuel e num = some (m', l.take k) ∧
        m'.links.Ring (.head e :: (l.drop k ++ l.take k).map .receptor) ∧
        m'.links.Agree m.links (· ∉ WireNode.head e :: l.map .receptor) ∧
        ∀ r, m'.flags r =
          if r ∈ l.take k then { m.flags r with trigger := true } else m.flags r) ∧
    ∀ turns m', Run (Turn e l) m turns m' →
      (∃ j, m'.links.Ring (.head e :: (l.rotate j).map .receptor)) ∧
      ∀ a ∈ l, ∀ b ∈ l, turns.flatten.count a ≤ turns.flatten.count b + 1 := by
  refine ⟨?_, fun turns m' run => ?_⟩
  · rintro num fuel _ pos enough rfl
    obtain ⟨k, eq⟩ : ∃ k : ℕ, num = k + 1 := ⟨num.toNat - 1, by omega⟩
    have count : num.toNat = k + 1 := by omega
    obtain ⟨m', run, turned, outside, same⟩ := ehEventNotifyAndReorder_run ring eq enough
    rw [← List.take_eq_take_min, ← List.drop_eq_drop_min, count]
    refine ⟨m', run, turned, outside, fun r => ?_⟩
    have flags := congrArg (fun ev => ev.flags r) (same fun _ => [])
    exact flags.trans (Events.foldl_notify_flags ..)
  · obtain ⟨j, ring', level⟩ := level_run ring run
    exact ⟨⟨j, ring'⟩, fun a memA b memB =>
      level.apart (List.mem_rotate.mpr memA) (List.mem_rotate.mpr memB)⟩

theorem notifyAndReorder_rotates_two :
    let first : Receptor Unit Bool Unit := .wait true
    let second : Receptor Unit Bool Unit := .wait false
    let turn : WireNode Unit Bool Unit → WireNode Unit Bool Unit := fun
      | .head _ => .receptor first
      | .receptor r => if r = first then .receptor second else .head ()
    let back : WireNode Unit Bool Unit → WireNode Unit Bool Unit := fun
      | .head _ => .receptor second
      | .receptor r => if r = first then .head () else .receptor first
    ∃ m', (EventMem.mk ⟨turn, back⟩ (fun _ => .clear) fun _ => ⟨[], none⟩).ehEventNotifyAndReorder
        3 () 1 = some (m', [first]) ∧
      m'.links.Ring (.head () :: [second, first].map .receptor) := by
  intro first second turn back
  have ring : (⟨turn, back⟩ : Links (WireNode Unit Bool Unit)).Ring
      (.head () :: [first, second].map .receptor) := by
    refine ⟨by decide, rfl, rfl, rfl, rfl, rfl, rfl⟩
  obtain ⟨calls, -⟩ := notifyAndReorder_rotates
    (m := ⟨⟨turn, back⟩, fun _ => .clear, fun _ => ⟨[], none⟩⟩) ring
  obtain ⟨m', run, turned, -, -⟩ := calls 1 3 1 (by decide) (by decide) (by decide)
  exact ⟨m', run, turned⟩

end EventMem

end EventHub.Event
