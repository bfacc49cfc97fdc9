import Mathlib.Order.Lattice
import Mathlib.Order.Defs.LinearOrder
import Mathlib.Data.List.Basic
import Mathlib.Data.List.TakeWhile

/-! Agendas: keys in order of their expiry, those of one expiry in the order in which they
were added. An agenda fires what has expired, and may add a key again when it fires. -/

namespace EventHub.Library

theorem pairwise_last_all {α : Type*} {r : α → α → Prop} {l : List α} {x : α}
    (trans : ∀ {a b c}, r a b → r b c → r a c) (h : l.Pairwise r)
    (last : ∀ a ∈ l.getLast?, r a x) : ∀ a ∈ l, r a x := by
  rcases List.eq_nil_or_concat' l with rfl | ⟨l, b, rfl⟩
  · simp
  · intro a mem
    have before : r b x := last b (by simp)
    rcases List.mem_append.mp mem with mem | mem
    · exact trans ((List.pairwise_append.mp h).2.2 a mem b (by simp)) before
    · rwa [List.mem_singleton.mp mem]

/-- `added` counts the additions before this one. -/
structure Entry (K T : Type*) where
  key : K
  expiry : T
  added : Nat

namespace Entry
variable {K T : Type*} [LinearOrder T]

def Earlier (a b : Entry K T) : Prop :=
  a.expiry < b.expiry ∨ a.expiry = b.expiry ∧ a.added < b.added

theorem Earlier.le {a b : Entry K T} (h : Earlier a b) : a.expiry ≤ b.expiry := by
  rcases h with h | ⟨h, -⟩
  · exact h.le
  · exact h.le

end Entry

@[ext] structure Agenda (K T : Type*) [LinearOrder T] where
  entries : List (Entry K T)
  adds : Nat
  sorted : entries.Pairwise Entry.Earlier
  fresh : ∀ e ∈ entries, e.added < adds

namespace Agenda
variable {K T : Type*} [LinearOrder T]

def empty : Agenda K T := ⟨[], 0, .nil, by simp⟩

def keys (a : Agenda K T) : List K := a.entries.map Entry.key

/-- The entries whose expiry is at or before `t`. -/
def due (a : Agenda K T) (t : T) : List (Entry K T) := a.entries.filter (·.expiry ≤ t)

def place (e : Entry K T) (l : List (Entry K T)) : List (Entry K T) :=
  l.filter (·.expiry ≤ e.expiry) ++ e :: l.filter (¬·.expiry ≤ e.expiry)

theorem mem_place {e b : Entry K T} {l : List (Entry K T)} :
    b ∈ place e l ↔ b = e ∨ b ∈ l := by
  simp only [place, List.mem_append, List.mem_cons, List.mem_filter, decide_eq_true_eq,
    decide_not, Bool.not_eq_true', decide_eq_false_iff_not]
  tauto

theorem filter_split {l k : List (Entry K T)} {t : T} (hl : ∀ e ∈ l, e.expiry ≤ t)
    (hk : ∀ e ∈ k, t < e.expiry) :
    (l ++ k).filter (·.expiry ≤ t) = l ∧ (l ++ k).filter (¬·.expiry ≤ t) = k := by
  have inL : l.filter (·.expiry ≤ t) = l := List.filter_eq_self.mpr (by simpa using hl)
  have outL : l.filter (¬·.expiry ≤ t) = [] := by simpa using hl
  have inK : k.filter (¬·.expiry ≤ t) = k := List.filter_eq_self.mpr (by simpa using hk)
  have outK : k.filter (·.expiry ≤ t) = [] := by simpa using hk
  exact ⟨by rw [List.filter_append, inL, outK, List.append_nil],
    by rw [List.filter_append, outL, inK, List.nil_append]⟩

theorem place_between {e : Entry K T} {l k : List (Entry K T)}
    (sorted : (l ++ k).Pairwise Entry.Earlier)
    (last : ∀ a ∈ l.getLast?, a.expiry ≤ e.expiry)
    (head : ∀ a ∈ k.head?, e.expiry < a.expiry) : place e (l ++ k) = l ++ e :: k := by
  obtain ⟨hl, hk, -⟩ := List.pairwise_append.mp sorted
  have before : ∀ a ∈ l, a.expiry ≤ e.expiry := by
    refine fun a mem => pairwise_last_all (r := fun a b : Entry K T => a.expiry ≤ b.expiry)
      le_trans (hl.imp Entry.Earlier.le) (x := e) last a mem
  have after : ∀ a ∈ k, e.expiry < a.expiry := by
    rcases k with - | ⟨b, k⟩
    · simp
    · intro a mem
      have first : e.expiry < b.expiry := head b rfl
      rcases List.mem_cons.mp mem with rfl | mem
      · exact first
      · exact first.trans_le ((List.pairwise_cons.mp hk).1 a mem).le
  obtain ⟨left, right⟩ := filter_split before after
  rw [place, left, right]

theorem place_sorted {e : Entry K T} {l : List (Entry K T)} (h : l.Pairwise Entry.Earlier)
    (fresh : ∀ b ∈ l, b.added < e.added) : (place e l).Pairwise Entry.Earlier := by
  refine List.pairwise_append.mpr ⟨h.filter _, List.pairwise_cons.mpr ⟨fun b mem => ?_,
    h.filter _⟩, fun a inL b inK => ?_⟩
  · exact .inl (by simpa using (List.mem_filter.mp mem).2)
  · have le : a.expiry ≤ e.expiry := by simpa using (List.mem_filter.mp inL).2
    rcases List.mem_cons.mp inK with rfl | inK
    · rcases le.lt_or_eq with lt | eq
      · exact .inl lt
      · exact .inr ⟨eq, fresh a (List.mem_filter.mp inL).1⟩
    · exact .inl (le.trans_lt (by simpa using (List.mem_filter.mp inK).2))

def add (a : Agenda K T) (x : K) (expiry : T) : Agenda K T where
  entries := place ⟨x, expiry, a.adds⟩ a.entries
  adds := a.adds + 1
  sorted := place_sorted a.sorted a.fresh
  fresh e mem := by
    rcases mem_place.mp mem with rfl | mem
    · exact Nat.lt_succ_self _
    · exact (a.fresh e mem).trans (Nat.lt_succ_self _)

@[simp] theorem entries_add (a : Agenda K T) (x : K) (expiry : T) :
    (a.add x expiry).entries = place ⟨x, expiry, a.adds⟩ a.entries := rfl

theorem mem_due {a : Agenda K T} {t : T} {e : Entry K T} :
    e ∈ a.due t ↔ e ∈ a.entries ∧ e.expiry ≤ t := by
  simp [due]

theorem due_eq_cons {a : Agenda K T} {t : T} {e : Entry K T} {rest : List (Entry K T)}
    (h : a.due t = e :: rest) :
    ∃ later, a.entries = e :: later ∧ e.expiry ≤ t ∧ later.filter (·.expiry ≤ t) = rest := by
  have mem : e ∈ a.entries ∧ e.expiry ≤ t := mem_due.mp (by simp [h])
  cases front : a.entries with
  | nil => simp [front] at mem
  | cons b later =>
    have sorted := a.sorted
    rw [front] at sorted mem
    have first : b.expiry ≤ t := by
      rcases List.mem_cons.mp mem.1 with rfl | inLater
      · exact mem.2
      · exact ((List.pairwise_cons.mp sorted).1 e inLater).le.trans mem.2
    rw [due, front, List.filter_cons_of_pos (by simpa using first)] at h
    obtain ⟨rfl, tail⟩ := List.cons.inj h
    exact ⟨later, rfl, first, tail⟩

variable [DecidableEq K]

def remove (a : Agenda K T) (x : K) : Agenda K T where
  entries := a.entries.filter (·.key ≠ x)
  adds := a.adds
  sorted := a.sorted.filter _
  fresh e mem := a.fresh e (List.mem_of_mem_filter mem)

def fireOne (rearm : K → T → Option T) (a : Agenda K T) (e : Entry K T) : Agenda K T :=
  match rearm e.key e.expiry with
  | none => a.remove e.key
  | some expiry => (a.remove e.key).add e.key expiry

/-- Everything due at `t` fires in order. -/
def fire (a : Agenda K T) (t : T) (rearm : K → T → Option T) : Agenda K T :=
  (a.due t).foldl (fireOne rearm) a

variable {a : Agenda K T} {x : K} {t : T} {rearm : K → T → Option T} {e : Entry K T}

@[simp] theorem entries_remove (a : Agenda K T) (x : K) :
    (a.remove x).entries = a.entries.filter (·.key ≠ x) := rfl

theorem keys_remove (a : Agenda K T) (x : K) : (a.remove x).keys = a.keys.filter (· ≠ x) := by
  rw [keys, entries_remove, keys, List.filter_map]
  rfl

theorem remove_of_notMem (out : x ∉ a.keys) : a.remove x = a := by
  refine Agenda.ext (List.filter_eq_self.mpr fun e mem => ?_) rfl
  simpa using fun eq : e.key = x => out (eq ▸ List.mem_map_of_mem mem)

theorem remove_front {rest : List (Entry K T)} (nodup : a.keys.Nodup)
    (front : a.entries = e :: rest) : (a.remove e.key).entries = rest := by
  rw [keys, front, List.map_cons, List.nodup_cons] at nodup
  rw [entries_remove, front, List.filter_cons_of_neg (by simp), List.filter_eq_self]
  intro b mem
  simpa using fun eq : b.key = e.key => nodup.1 (eq ▸ List.mem_map_of_mem mem)

theorem due_fireOne {rest : List (Entry K T)} (nodup : a.keys.Nodup)
    (h : a.due t = e :: rest) (ahead : ∀ next, rearm e.key e.expiry = some next → t < next) :
    (fireOne rearm a e).due t = rest := by
  obtain ⟨later, front, -, tail⟩ := due_eq_cons h
  have left := remove_front nodup front
  unfold fireOne
  cases again : rearm e.key e.expiry with
  | none => rw [due, left, tail]
  | some next =>
    have lt := ahead next again
    rw [due, entries_add, left, place, List.filter_append,
      List.filter_cons_of_neg (by simpa using lt), List.filter_filter, List.filter_filter,
      ← tail]
    have none : later.filter (fun b => decide (b.expiry ≤ t) && !decide (b.expiry ≤ next)) =
        [] := by
      refine List.filter_eq_nil_iff.mpr fun b _ => ?_
      simpa using fun le : b.expiry ≤ t => le.trans lt.le
    have all : later.filter (fun b => decide (b.expiry ≤ t) && decide (b.expiry ≤ next)) =
        later.filter (·.expiry ≤ t) := by
      refine List.filter_congr fun b _ => ?_
      by_cases le : b.expiry ≤ t
      · simp [le, le.trans lt.le]
      · simp [le]
    simp only [decide_not, all, none, List.append_nil]

theorem fire_cons {rest : List (Entry K T)} (nodup : a.keys.Nodup)
    (h : a.due t = e :: rest) (ahead : ∀ next, rearm e.key e.expiry = some next → t < next) :
    a.fire t rearm = (fireOne rearm a e).fire t rearm := by
  rw [fire, h, fire, due_fireOne nodup h ahead, List.foldl_cons]

theorem fire_nil (h : a.due t = []) : a.fire t rearm = a := by
  rw [fire, h, List.foldl_nil]

end Agenda

end EventHub.Library
