import EventHub.Library.Links
import Mathlib.Data.List.Count

/-! One pass of `_eh_poll_run` over the loop poll tasks, while the functions of these delete and
add poll tasks. The pass runs backwards and has saved the task it goes on with. -/

namespace EventHub.Core
open Library

/-- `loop_poll_task_head`, or the `list_node` of a poll task. -/
inductive PollNode (P : Type) where
  | head
  | task (p : P)
deriving DecidableEq

inductive PollOp (P : Type) where
  | add (p : P)
  | del (p : P)
deriving DecidableEq

def deletes {P : Type} (ops : List (PollOp P)) : List P :=
  ops.filterMap fun
    | .add _ => none
    | .del p => some p

/-- The poll tasks of a program: which have a function, and what the `k`-th call does. -/
structure PollTasks (P : Type) where
  pollTask : P → Bool
  calls : Nat → List (PollOp P)

/-- `_eh_poll_run` at the test of its loop, with the calls so far and what they deleted. -/
structure PollPass (P : Type) where
  links : Links (PollNode P)
  pos : PollNode P
  n : PollNode P
  called : List P
  deleted : List P

section Code
variable {P : Type} [DecidableEq P]

def ehLoopPollTaskAdd (m : Links (PollNode P)) (p : P) : Links (PollNode P) :=
  if m.next (.task p) = .task p then m.addTail (.task p) .head else m

/-- `eh_list_del_init` on the node of the poll task. -/
def ehLoopPollTaskDel (m : Links (PollNode P)) (p : P) : Links (PollNode P) :=
  m.delInit (.task p)

def PollOp.apply (m : Links (PollNode P)) : PollOp P → Links (PollNode P)
  | add p => ehLoopPollTaskAdd m p
  | del p => ehLoopPollTaskDel m p

namespace PollPass

def start (m : Links (PollNode P)) : PollPass P where
  links := m
  pos := m.prev .head
  n := m.prev (m.prev .head)
  called := []
  deleted := []

/-- `pos->poll_task(pos->arg)`. -/
def call (t : PollTasks P) (s : PollPass P) (p : P) : PollPass P :=
  if t.pollTask p then
    { s with
      links := (t.calls s.called.length).foldl PollOp.apply s.links
      called := s.called ++ [p]
      deleted := s.deleted ++ deletes (t.calls s.called.length) }
  else s

def round (t : PollTasks P) (s : PollPass P) : PollPass P :=
  match s.pos with
  | .head => s
  | .task p =>
    let s' := s.call t p
    { s' with pos := s'.n, n := s'.links.prev s'.n }

def rounds (t : PollTasks P) (m : Links (PollNode P)) : Nat → PollPass P
  | 0 => start m
  | i + 1 => round t (rounds t m i)

end PollPass

/-- The pass ends, calls no poll task that a call before has deleted, and calls each of `l` that
has a function and is not deleted once. -/
structure PassesSafely (t : PollTasks P) (m : Links (PollNode P)) (l : List P) : Prop where
  ends : ∃ i, (PollPass.rounds t m i).pos = .head
  deleted : ∀ i p, (PollPass.rounds t m i).pos = .task p → t.pollTask p = true →
    p ∉ (PollPass.rounds t m i).deleted
  once : ∀ i, (PollPass.rounds t m i).pos = .head → ∀ p ∈ l, t.pollTask p = true →
    p ∉ (PollPass.rounds t m i).deleted → (PollPass.rounds t m i).called.count p = 1

def DeletesSaved (t : PollTasks P) (s : PollPass P) (q : P) : Prop :=
  ∃ p, s.pos = .task p ∧ t.pollTask p = true ∧ s.n = .task q ∧
    q ∈ deletes (t.calls s.called.length)

end Code

section List
variable {P : Type}

/-- The poll tasks `l` are linked, and every other node to itself. -/
structure Polls (m : Links (PollNode P)) (l : List P) : Prop where
  ring : m.Ring (.head :: l.map .task)
  alone : ∀ p, p ∉ l → m.next (.task p) = .task p ∧ m.prev (.task p) = .task p

def pollNodes (l : List P) : List (PollNode P) := .head :: l.map .task

theorem task_mem_pollNodes {l : List P} {p : P} :
    .task p ∈ pollNodes l ↔ p ∈ l := by
  simp [pollNodes]

def cursor : List P → PollNode P
  | [] => .head
  | p :: _ => .task p

namespace Polls
variable {m : Links (PollNode P)} {l k : List P} {p : P}

theorem next_self (h : Polls m l) : m.next (.task p) = .task p ↔ p ∉ l := by
  refine ⟨fun eq mem => ?_, fun out => (h.alone p out).1⟩
  obtain ⟨a, b, rfl⟩ := List.append_of_mem mem
  have ring : m.Ring (pollNodes a ++ .task p :: b.map .task) := by
    simpa [pollNodes] using h.ring
  cases (ring.next_self_mid.mp eq).1

theorem prev_task (h : Polls m (k.reverse ++ p :: l)) : m.prev (.task p) = cursor k := by
  cases k with
  | nil =>
    have ring : m.Ring (pollNodes (p :: l)) := by simpa [pollNodes] using h.ring
    exact ring.prev
  | cons q k =>
    have ring : m.Ring (pollNodes k.reverse ++ .task q :: .task p :: l.map .task) := by
      simpa [pollNodes] using h.ring
    exact ring.prev_mid

theorem prev_head (h : Polls m k.reverse) : m.prev .head = cursor k := by
  cases k with
  | nil => exact (Links.ring_singleton.mp h.ring).2
  | cons q k =>
    have ring : m.Ring (.head :: (k.reverse.map .task ++ [.task q])) := by simpa using h.ring
    exact ring.prev_last

theorem nodup (h : Polls m l) : l.Nodup :=
  (List.nodup_cons.mp h.ring.nodup).2.of_map

end Polls
end List

/-! The list behind an operation. -/

section Edit
variable {P : Type} [DecidableEq P]

theorem filter_ne_of_not_mem {l : List P} {p : P} (out : p ∉ l) : l.filter (· ≠ p) = l :=
  List.filter_eq_self.mpr fun x mem => by
    have ne : x ≠ p := fun eq => out (eq ▸ mem)
    simpa using ne

namespace Polls
variable {m : Links (PollNode P)} {l k : List P} {p : P}

theorem add (h : Polls m l) (p : P) :
    Polls (ehLoopPollTaskAdd m p) (if p ∈ l then l else l ++ [p]) := by
  rw [ehLoopPollTaskAdd]
  by_cases mem : p ∈ l
  · rw [if_neg (h.next_self.not.mpr (not_not.mpr mem)), if_pos mem]
    exact h
  · have out : .task p ∉ pollNodes l := task_mem_pollNodes.not.mpr mem
    rw [if_pos (h.next_self.mpr mem), if_neg mem]
    refine ⟨?_, fun q outQ => ?_⟩
    · simpa using h.ring.addTail out
    · obtain ⟨outL, ne⟩ : q ∉ l ∧ q ≠ p := by simpa using outQ
      obtain ⟨next, prev⟩ := h.ring.addTail_agree (.task p) (.task q) (by simp [outL, ne])
      rw [next, prev]
      exact h.alone q outL

theorem del (h : Polls m l) (p : P) :
    Polls (ehLoopPollTaskDel m p) (l.filter (· ≠ p)) := by
  rw [ehLoopPollTaskDel]
  by_cases mem : p ∈ l
  · obtain ⟨a, b, rfl⟩ := List.append_of_mem mem
    have ring : m.Ring (pollNodes a ++ .task p :: b.map .task) := by
      simpa [pollNodes] using h.ring
    obtain ⟨outA, outB⟩ : p ∉ a ∧ p ∉ b := by
      simpa using (List.nodup_cons.mp (List.nodup_middle.mp h.nodup)).1
    rw [List.filter_append, List.filter_cons_of_neg (by simp), filter_ne_of_not_mem outA,
      filter_ne_of_not_mem outB]
    refine ⟨by simpa [pollNodes] using ring.delInit, fun q out => ?_⟩
    by_cases eq : q = p
    · exact eq ▸ m.delInit_next_self (.task p)
    · have outL : q ∉ a ++ p :: b := by
        simp only [List.mem_append, List.mem_cons] at out ⊢
        tauto
      obtain ⟨next, prev⟩ := h.ring.delInit_agree (x := .task p) (by simp) (.task q)
        (task_mem_pollNodes.not.mpr outL)
      rw [next, prev]
      exact h.alone q outL
  · obtain ⟨next, prev⟩ := h.alone p mem
    rw [Links.delInit_self next prev, filter_ne_of_not_mem mem]
    exact h

end Polls

/-! A call, and the pass. -/

def PollOp.list (l : List P) : PollOp P → List P
  | add p => if p ∈ l then l else l ++ [p]
  | del p => l.filter (· ≠ p)

namespace Polls
variable {m : Links (PollNode P)} {l : List P}

theorem foldl (h : Polls m l) (ops : List (PollOp P)) :
    Polls (ops.foldl PollOp.apply m) (ops.foldl PollOp.list l) := by
  induction ops generalizing m l with
  | nil => exact h
  | cons op ops ih =>
    cases op with
    | add p => exact ih (h.add p)
    | del p => exact ih (h.del p)

end Polls

theorem foldl_list_append (ops : List (PollOp P)) (a d : List P) :
    ∃ d', ops.foldl PollOp.list (a ++ d) = a.filter (· ∉ deletes ops) ++ d' := by
  induction ops generalizing a d with
  | nil => exact ⟨d, by simp [deletes]⟩
  | cons op ops ih =>
    cases op with
    | add p =>
      obtain ⟨d', eq⟩ := ih a (if p ∈ a ++ d then d else d ++ [p])
      refine ⟨d', Eq.trans ?_ eq⟩
      rw [List.foldl_cons, PollOp.list]
      split <;> simp
    | del p =>
      obtain ⟨d', eq⟩ := ih (a.filter (· ≠ p)) (d.filter (· ≠ p))
      have both : deletes (.del p :: ops) = p :: deletes ops := rfl
      refine ⟨d', ?_⟩
      rw [List.foldl_cons, PollOp.list, List.filter_append, eq, List.filter_filter, both]
      congr 2
      funext x
      simp [Bool.and_comm]

namespace PollPass
variable {t : PollTasks P} {s : PollPass P} {m : Links (PollNode P)} {l todo rest past : List P}
  {p q : P} {i : Nat}

def callDeletes (t : PollTasks P) (s : PollPass P) (p : P) : List P :=
  if t.pollTask p then deletes (t.calls s.called.length) else []

theorem call_deleted : (s.call t p).deleted = s.deleted ++ callDeletes t s p := by
  rw [call, callDeletes]
  split <;> simp

theorem call_called : (s.call t p).called = if t.pollTask p then s.called ++ [p] else s.called := by
  rw [call]
  split <;> rfl

theorem call_n : (s.call t p).n = s.n := by
  rw [call]
  split <;> rfl

theorem call_polls (h : Polls s.links (rest.reverse ++ past)) :
    ∃ past', Polls (s.call t p).links
      ((rest.filter (· ∉ callDeletes t s p)).reverse ++ past') := by
  rw [call, callDeletes]
  split
  · obtain ⟨past', eq⟩ := foldl_list_append (t.calls s.called.length) rest.reverse past
    refine ⟨past', ?_⟩
    rw [← List.filter_reverse, ← eq]
    exact h.foldl _
  · exact ⟨past, by simpa using h⟩

/-- The state at the test of the loop: `todo` is still to be visited, in this order. -/
structure Visits (t : PollTasks P) (l : List P) (s : PollPass P) (todo past : List P) : Prop where
  polls : Polls s.links (todo.reverse ++ past)
  pos : s.pos = cursor todo
  n : ∀ p rest, todo = p :: rest → s.n = cursor rest
  fresh : ∀ p ∈ todo, p ∉ s.called ∧ p ∉ s.deleted
  nodup : s.called.Nodup
  covered : ∀ p ∈ l, p ∈ todo ∨ p ∈ s.deleted ∨ (t.pollTask p = true → p ∈ s.called)

omit [DecidableEq P] in
theorem start_visits (h : Polls m l) : Visits t l (start m) l.reverse [] where
  polls := by
    rw [List.reverse_reverse, List.append_nil]
    exact h
  pos := Polls.prev_head (by simpa using h)
  n p rest eq := by
    have same : l = rest.reverse ++ [p] := by
      rw [← List.reverse_reverse l, eq, List.reverse_cons]
    have pos : m.prev .head = .task p := by
      have := Polls.prev_head (m := m) (k := l.reverse) (by simpa using h)
      rwa [eq] at this
    rw [start, pos]
    exact Polls.prev_task (same ▸ h)
  fresh p mem := by simp [start]
  nodup := .nil
  covered p mem := .inl (by simpa using mem)

theorem Visits.round (h : Visits t l s (p :: rest) past)
    (spares : ∀ q, ¬ DeletesSaved t s q) :
    ∃ past', Visits t l (s.round t) (rest.filter (· ∉ callDeletes t s p)) past' := by
  have pos : s.pos = .task p := h.pos
  have n : s.n = cursor rest := h.n p rest rfl
  have polls : Polls s.links (rest.reverse ++ p :: past) := by simpa using h.polls
  have distinct : (p :: rest).Nodup := by
    have := (List.nodup_append.mp h.polls.nodup).1
    rwa [List.nodup_reverse] at this
  obtain ⟨past', after⟩ := call_polls (t := t) (p := p) polls
  -- the cursor stays on the first of the rest
  have first : cursor (rest.filter (· ∉ callDeletes t s p)) = cursor rest := by
    cases rest with
    | nil => rfl
    | cons q rest =>
      have kept : q ∉ callDeletes t s p := by
        intro mem
        rw [callDeletes] at mem
        split at mem
        · next callable => exact spares q ⟨p, pos, callable, n, mem⟩
        · cases mem
      rw [List.filter_cons_of_pos (by simpa using kept)]
      rfl
  have step : s.round t = { s.call t p with
      pos := cursor rest, n := (s.call t p).links.prev (cursor rest) } := by
    rw [PollPass.round, pos]
    simp only [call_n, n]
  refine ⟨past', ?_⟩
  rw [step]
  refine ⟨after, first.symm, fun q later eq => ?_, fun q mem => ?_, ?_, fun q mem => ?_⟩
  · rw [eq] at after first
    rw [← first]
    exact Polls.prev_task (by simpa using after)
  · obtain ⟨inRest, kept⟩ : q ∈ rest ∧ q ∉ callDeletes t s p := by simpa using mem
    have ne : q ≠ p := fun eq => (List.nodup_cons.mp distinct).1 (eq ▸ inRest)
    obtain ⟨notCalled, notDeleted⟩ := h.fresh q (List.mem_cons_of_mem _ inRest)
    refine ⟨?_, ?_⟩
    · simp only [call_called]
      split <;> simp [notCalled, ne]
    · simp [call_deleted, notDeleted, kept]
  · simp only [call_called]
    split
    · rw [List.nodup_append]
      refine ⟨h.nodup, by simp, ?_⟩
      rintro x mem y memY rfl
      rw [List.mem_singleton.mp memY] at mem
      exact (h.fresh p (by simp)).1 mem
    · exact h.nodup
  · rcases h.covered q mem with todo | deleted | called
    · by_cases gone : q ∈ callDeletes t s p
      · right
        left
        simp [call_deleted, gone]
      · rcases List.mem_cons.mp todo with rfl | inRest
        · right
          right
          intro callable
          simp [call_called, callable]
        · left
          simpa using ⟨inRest, gone⟩
    · right
      left
      simp [call_deleted, deleted]
    · right
      right
      intro callable
      simp only [call_called]
      split <;> simp [called callable]

theorem round_head (pos : s.pos = .head) : s.round t = s := by
  rw [PollPass.round, pos]

theorem rounds_visits (h : Polls m l) (spares : ∀ i q, ¬ DeletesSaved t (rounds t m i) q)
    (i : Nat) : ∃ todo past, Visits t l (rounds t m i) todo past ∧
      (todo = [] ∨ todo.length + i ≤ l.length) := by
  induction i with
  | zero => exact ⟨l.reverse, [], start_visits h, .inr (by simp)⟩
  | succ i ih =>
    obtain ⟨todo, past, visits, le⟩ := ih
    cases todo with
    | nil =>
      have same : rounds t m (i + 1) = rounds t m i := round_head visits.pos
      exact ⟨[], past, same ▸ visits, .inl rfl⟩
    | cons p rest =>
      obtain ⟨past', next⟩ := visits.round (spares i)
      have less := List.length_filter_le
        (fun x => decide (x ∉ callDeletes t (rounds t m i) p)) rest
      have before := le.resolve_left (List.cons_ne_nil p rest)
      rw [List.length_cons] at before
      exact ⟨_, past', next, .inr (by omega)⟩

theorem rounds_safe (h : Polls m l) (spares : ∀ i q, ¬ DeletesSaved t (rounds t m i) q) :
    PassesSafely t m l where
  ends := by
    obtain ⟨todo, past, visits, le⟩ := rounds_visits h spares (l.length + 1)
    have none : todo = [] := le.resolve_right (by omega)
    exact ⟨_, visits.pos.trans (by rw [none]; rfl)⟩
  deleted i p pos callable := by
    obtain ⟨todo, past, visits, -⟩ := rounds_visits h spares i
    have first : p ∈ todo := by
      rw [visits.pos] at pos
      cases todo with
      | nil => cases pos
      | cons q rest =>
        cases pos
        exact List.mem_cons_self
    exact (visits.fresh p first).2
  once i pos p mem callable kept := by
    obtain ⟨todo, past, visits, -⟩ := rounds_visits h spares i
    have none : todo = [] := by
      rw [visits.pos] at pos
      cases todo with
      | nil => rfl
      | cons q rest => cases pos
    have called : p ∈ (rounds t m i).called := by
      rcases visits.covered p mem with todo | deleted | called
      · rw [none] at todo
        cases todo
      · exact absurd deleted kept
      · exact called callable
    exact List.count_eq_one_of_mem visits.nodup called

theorem rounds_polls (h : Polls m l) (i : Nat) : ∃ k, Polls (rounds t m i).links k := by
  induction i with
  | zero => exact ⟨l, h⟩
  | succ i ih =>
    obtain ⟨k, polls⟩ := ih
    rw [rounds, round]
    cases (rounds t m i).pos with
    | head => exact ⟨k, polls⟩
    | task p =>
      have listed : Polls (rounds t m i).links ([].reverse ++ k) := polls
      obtain ⟨k', after⟩ := call_polls (t := t) (p := p) listed
      exact ⟨_, after⟩

theorem rounds_head (pos : (rounds t m i).pos = .head) (j : Nat) :
    (rounds t m (i + j)).pos = .head := by
  induction j with
  | zero => exact pos
  | succ j ih =>
    rw [← Nat.add_assoc, rounds, round_head ih]
    exact ih

theorem rounds_deletes (h : DeletesSaved t (rounds t m i) q) :
    (rounds t m (i + 1)).pos = .task q ∧ q ∈ (rounds t m (i + 1)).deleted ∧
      (rounds t m (i + 1)).n = (rounds t m (i + 1)).links.prev (.task q) := by
  obtain ⟨p, pos, callable, n, mem⟩ := h
  have step : rounds t m (i + 1) = { (rounds t m i).call t p with
      pos := .task q, n := ((rounds t m i).call t p).links.prev (.task q) } := by
    rw [rounds, round, pos]
    simp only [call_n, n]
  rw [step]
  refine ⟨rfl, ?_, rfl⟩
  simp [call_deleted, callDeletes, callable, mem]

theorem rounds_stuck (pos : (rounds t m i).pos = .task q) (n : (rounds t m i).n = .task q)
    (idle : t.pollTask q = false) (self : (rounds t m i).links.prev (.task q) = .task q)
    (j : Nat) : (rounds t m (i + j)).pos = .task q := by
  have same : ∀ s : PollPass P, s.pos = .task q → s.n = .task q →
      s.links.prev (.task q) = .task q → s.round t = s := by
    intro s pos n self
    have kept : s.call t q = s := by rw [call, idle, if_neg Bool.false_ne_true]
    rw [round, pos]
    simp only [kept, n, self]
    obtain ⟨links, pos', n', called, deleted⟩ := s
    cases pos
    cases n
    rfl
  have all : rounds t m (i + j) = rounds t m i := by
    induction j with
    | zero => rfl
    | succ j ih => rw [← Nat.add_assoc, rounds, ih, same _ pos n self]
  rw [all]
  exact pos

end PollPass

end Edit

/-- A pass is safe where no call deletes the poll task that the pass goes on with. A safe pass
has no such deletion but of a task without function that the same call puts back. -/
theorem ehPollRun_safe {P : Type} [DecidableEq P] {t : PollTasks P} {m : Links (PollNode P)}
    {l : List P} (polls : Polls m l) :
    ((∀ i q, ¬ DeletesSaved t (PollPass.rounds t m i) q) → PassesSafely t m l) ∧
      (PassesSafely t m l → ∀ i q, DeletesSaved t (PollPass.rounds t m i) q →
        t.pollTask q = false ∧
          (PollPass.rounds t m (i + 1)).links.next (.task q) ≠ .task q) := by
  refine ⟨PollPass.rounds_safe polls, fun safe i q deletes => ?_⟩
  obtain ⟨pos, deleted, n⟩ := PollPass.rounds_deletes deletes
  have idle : t.pollTask q = false := by
    by_contra callable
    exact safe.deleted (i + 1) q pos (by simpa using callable) deleted
  refine ⟨idle, fun gone => ?_⟩
  -- left out of the list, the task is its own successor and predecessor
  obtain ⟨k, after⟩ := PollPass.rounds_polls (t := t) polls (i + 1)
  have self := (after.alone q (after.next_self.mp gone)).2
  obtain ⟨j, ends⟩ := safe.ends
  have stuck := PollPass.rounds_stuck pos (n.trans self) idle self j
  have stays := PollPass.rounds_head ends (i + 1)
  rw [Nat.add_comm j] at stays
  rw [stays] at stuck
  cases stuck

/-- Of three poll tasks, the first one called adds a fourth one, and the second one deletes itself
and the first one. -/
def edits : PollTasks Nat where
  pollTask _ := true
  calls
    | 0 => [.add 3]
    | 1 => [.del 1, .del 0]
    | _ => []

def threePolls : Links (PollNode Nat) := [2, 1, 0].foldl ehLoopPollTaskAdd ⟨id, id⟩

theorem threePolls_polls : Polls threePolls [2, 1, 0] := by
  have none : Polls (⟨id, id⟩ : Links (PollNode Nat)) [] := ⟨by simp [Links.ring_singleton], by simp⟩
  exact (((none.add 2).add 1).add 0)

theorem edits_spare (i q : Nat) : ¬DeletesSaved edits (PollPass.rounds edits threePolls i) q := by
  rintro ⟨p, pos, -, saved, mem⟩
  match i with
  | 0 => exact absurd mem List.not_mem_nil
  | 1 =>
    obtain rfl : q = 2 := PollNode.task.inj (saved.symm.trans (by decide))
    exact absurd mem (by decide)
  | 2 => exact absurd mem List.not_mem_nil
  | i + 3 =>
    have ends : (PollPass.rounds edits threePolls 3).pos = .head := by decide
    rw [Nat.add_comm, PollPass.rounds_head ends] at pos
    cases pos

theorem ehPollRun_safe_edits : PassesSafely edits threePolls [2, 1, 0] ∧
    (PollPass.rounds edits threePolls 3).called = [0, 1, 2] ∧
    (PollPass.rounds edits threePolls 3).links.next .head = .task 2 ∧
    (PollPass.rounds edits threePolls 3).links.next (.task 2) = .task 3 :=
  ⟨(ehPollRun_safe threePolls_polls).1 edits_spare, by decide, by decide, by decide⟩

/-- The poll task that is visited first deletes the other one, which is called none the less. -/
theorem ehPollRun_calls_deleted :
    ¬ PassesSafely ⟨fun _ => true, fun _ => [.del 1]⟩
      (ehLoopPollTaskAdd (ehLoopPollTaskAdd ⟨id, id⟩ 1) 0) [1, 0] := by
  intro safe
  exact safe.deleted 1 1 (by decide) rfl (by decide)

end EventHub.Core
