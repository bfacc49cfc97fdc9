import EventHub.Sync.Flags

/-! Waits that clear the flags they wait for, and calls that set flags: every time a bit is
raised, at most one wait returns it. -/

namespace EventHub.Sync
open Library Event Kernel

/-- A call of `eh_event_flags_wait_bits_set` with `claen_flags` equal to `wait_flags`. -/
structure Delivery (O : Type) (w : Nat) where
  ef : O
  waitFlags : BitVec w
  realityFlags : Bool
deriving DecidableEq

def Delivery.arg {O : Type} {w : Nat} (c : Delivery O w) : FlagsConditionArg O w :=
  ehEventFlagsWaitBitsSet c.ef c.waitFlags c.waitFlags c.realityFlags

namespace FlagsCall
variable {O : Type} {w : Nat}

def sets : FlagsCall O w → Bool
  | .load .setBits _ _ | .exchange .setBits _ _ _ | .notify _ => true
  | .load .clearBits _ _ | .exchange .clearBits _ _ _ | .update _ _ => false

end FlagsCall

variable {T O P : Type} {w : Nat} [DecidableEq T] [DecidableEq O]

def deliverySystem (T O : Type) [DecidableEq T] [DecidableEq O] (w dispatchCntPerPoll : Nat) :
    System T O (EventFlags T O w) (Delivery O w) (FlagsCall O w) where
  dispatchCntPerPoll := dispatchCntPerPoll
  event c := c.ef
  condition c := some c.arg.conditionEventFlags
  finish c := c.arg.finish
  act a _ x := x.act a
  fromTask a := a.starts && a.sets
  fromInterrupt a := a.starts && a.sets

theorem deliverySystem_tested {n : Nat} {c : Delivery O w} {t : T} {x x' : EventFlags T O w}
    {met : Bool} : (deliverySystem T O w n).Tested c t x met x' ↔
      c.arg.conditionEventFlags t x = (met, x') := by
  simp [System.Tested, deliverySystem]

namespace EventFlags

def present (x : EventFlags T O w) (o : O) (b : Nat) : List Nat :=
  if (x.flags o).getLsbD b then [x.raised o b - 1] else []

structure Raises (x x' : EventFlags T O w) : Prop where
  reality : x'.reality = x.reality
  taken : x'.taken = x.taken
  reported : x'.reported = x.reported
  kept : ∀ {o b}, (x.flags o).getLsbD b = true → (x'.flags o).getLsbD b = true
  account : ∀ {o b l}, (l ++ x.present o b).Perm (List.range (x.raised o b)) →
    (l ++ x'.present o b).Perm (List.range (x'.raised o b))

omit [DecidableEq T] in
theorem raises_store (x : EventFlags T O w) (o : O) (flags : BitVec w) :
    x.Raises (x.store o (x.flags o ||| flags)) where
  reality := rfl
  taken := rfl
  reported := rfl
  kept := by
    intro p b set
    by_cases eq : p = o
    · subst eq
      simp [store, set]
    · simp [store, eq, set]
  account := by
    intro p b l perm
    by_cases eq : p = o
    · subst eq
      by_cases old : (x.flags p).getLsbD b = true
      · simpa [present, store, old] using perm
      · by_cases new : flags.getLsbD b = true
        · have before : l.Perm (List.range (x.raised p b)) := by
            simpa [present, old] using perm
          simpa [present, store, old, new, List.range_succ] using before.append_right _
        · simpa [present, store, old, new] using perm
    · simpa [present, store, eq] using perm

omit [DecidableEq T] in
theorem raises_act (x : EventFlags T O w) {a : FlagsCall O w} (sets : a.sets = true) :
    x.Raises (x.act a).world := by
  have attempted : ∀ op o flags, x.Raises (x.attempt op o flags).world := by
    intro op o flags
    rw [attempt]
    split <;> exact ⟨rfl, rfl, rfl, id, id⟩
  cases a with
  | load op o flags => exact attempted op o flags
  | exchange op o flags old =>
    cases op with
    | clearBits => cases sets
    | setBits =>
      rw [act]
      split
      · next same =>
        subst same
        exact x.raises_store o flags
      · exact attempted .setBits o flags
  | update o flags => cases sets
  | notify o => exact ⟨rfl, rfl, rfl, id, id⟩

omit [DecidableEq T] in
theorem act_rest (x : EventFlags T O w) {a b : FlagsCall O w} (sets : a.sets = true)
    (rest : (x.act a).rest = some b) : b.sets = true := by
  have attempted : ∀ {o flags}, (x.attempt .setBits o flags).rest = some b → b.sets = true := by
    intro o flags rest
    rw [attempt] at rest
    split at rest <;> cases rest
    rfl
  cases a with
  | load op o flags =>
    cases op with
    | clearBits => cases sets
    | setBits => exact attempted rest
  | exchange op o flags old =>
    cases op with
    | clearBits => cases sets
    | setBits =>
      rw [act] at rest
      split at rest
      · cases rest
        rfl
      · exact attempted rest
  | update o flags => cases sets
  | notify o => cases rest

theorem account_take (x : EventFlags T O w) (c : Delivery O w) (t : T) {o : O} {b : Nat}
    {l : List Nat} (perm : (l ++ x.present o b).Perm (List.range (x.raised o b))) :
    let x' := (x.read c.arg t).store c.ef (c.arg.change (x.flags c.ef))
    (l ++ (if c.ef = o then (x'.taken t b).toList else []) ++ x'.present o b).Perm
      (List.range (x'.raised o b)) := by
  by_cases eq : c.ef = o
  · subst eq
    by_cases old : (x.flags c.ef).getLsbD b = true
    · have lt := BitVec.lt_of_getLsbD old
      by_cases mask : c.waitFlags.getLsbD b = true
      · simpa [present, store, read, Delivery.arg, ehEventFlagsWaitBitsSet,
          FlagsConditionArg.change, old, mask] using perm
      · simpa [present, store, read, Delivery.arg, ehEventFlagsWaitBitsSet,
          FlagsConditionArg.change, old, mask, lt, -BitVec.getLsbD_eq_getElem] using perm
    · simpa [present, store, read, Delivery.arg, ehEventFlagsWaitBitsSet,
        FlagsConditionArg.change, old] using perm
  · simpa [present, store, read, eq, Ne.symm eq] using perm

end EventFlags

def owed (x : EventFlags T O w) (t : T) (o : O) (b : Nat) :
    Phase (Delivery O w) (FlagsCall O w) → List Nat
  | .verdict c ret => if c.ef = o ∧ 0 ≤ ret then (x.taken t b).toList else []
  | .idle | .acting _ => []

variable [DecidableEq P]

/-- Every time a bit was raised has been returned, or is about to be, or is the time since which
the bit has been set. -/
structure DeliveryOk
    (v : View T O P (EventFlags T O w) (Delivery O w) (FlagsCall O w)) : Prop where
  account : ∀ o b, (v.world.reported o b ++ owed v.world v.self o b v.phase ++
    v.world.present o b).Perm (List.range (v.world.raised o b))
  reality : ∀ {c ret}, v.phase = .verdict c ret → 0 ≤ ret → c.realityFlags = true →
    ∀ b, (v.world.reality v.self).getLsbD b = (v.world.taken v.self b).isSome
  acting : ∀ {a}, v.phase = .acting a → a.sets = true
  calls : ∀ a ∈ v.calls, a.sets = true

omit [DecidableEq T] [DecidableEq P] in
theorem DeliveryOk.raise {v : View T O P (EventFlags T O w) (Delivery O w) (FlagsCall O w)}
    {x : EventFlags T O w} (h : DeliveryOk v) (raises : v.world.Raises x)
    {phase : Phase (Delivery O w) (FlagsCall O w)} {o : O} {b : Nat}
    (same : owed x v.self o b phase = owed v.world v.self o b v.phase) :
    (x.reported o b ++ owed x v.self o b phase ++ x.present o b).Perm
      (List.range (x.raised o b)) := by
  rw [same, raises.reported]
  exact raises.account (h.account o b)

omit [DecidableEq T] [DecidableEq P] in
theorem owed_congr {x x' : EventFlags T O w} (taken : x'.taken = x.taken) (t : T) (o : O) (b : Nat)
    (phase : Phase (Delivery O w) (FlagsCall O w)) :
    owed x' t o b phase = owed x t o b phase := by
  cases phase with
  | verdict c ret => rw [owed, owed, taken]
  | _ => rfl

theorem DeliveryOk.step {n : Nat}
    {v v' : View T O P (EventFlags T O w) (Delivery O w) (FlagsCall O w)}
    {i : Option (Delivery O w)} (h : DeliveryOk v)
    (step : View.Step (deliverySystem T O w n) v i v') : DeliveryOk v' := by
  have refused : ∀ {ret : Int}, ret = ehRetTimeout ∨ ret = ehRetEventError → ¬ 0 ≤ ret := by
    rintro ret (rfl | rfl) <;> decide
  cases step with
  | switch idle =>
    refine ⟨fun o b => ?_, fun eq => ?_, h.acting, h.calls⟩
    · have before := h.account o b
      rw [idle] at before ⊢
      exact before
    · cases idle.symm.trans eq
  | test running tested =>
    obtain ⟨-, rfl⟩ := conditionEventFlags_false (deliverySystem_tested.mp tested)
    exact h
  | join => exact ⟨h.account, h.reality, h.acting, h.calls⟩
  | @met c world running tested =>
    obtain ⟨-, rfl⟩ := conditionEventFlags_true (deliverySystem_tested.mp tested)
    refine ⟨fun o b => ?_, fun {c' ret} eq _ pointer b => ?_, fun eq => (nomatch eq), h.calls⟩
    · have before := h.account o b
      rw [running.idle, owed, List.append_nil] at before
      have after := v.world.account_take c v.self before
      dsimp only at after
      rw [owed]
      by_cases eq : c.ef = o
      · rw [if_pos eq] at after
        rw [if_pos ⟨eq, by decide⟩]
        exact after
      · rw [if_neg eq] at after
        rw [if_neg fun both => eq both.1]
        exact after
    · cases eq
      have given : c.arg.realityFlags = true := pointer
      simp only [EventFlags.store, EventFlags.read, given, if_true, Function.update_self]
      split <;> simp [*]
  | triggered running plain => cases plain
  | @refused c world ret running tested error =>
    obtain ⟨-, rfl⟩ := conditionEventFlags_false (deliverySystem_tested.mp tested)
    refine ⟨fun o b => ?_, fun eq ok => ?_, fun eq => (nomatch eq), h.calls⟩
    · have before := h.account o b
      rw [running.idle] at before
      simpa only [owed, if_neg fun both : c.ef = o ∧ 0 ≤ ret => refused error both.2] using before
    · cases eq
      exact absurd ok (refused error)
  | @failed c running =>
    refine ⟨fun o b => ?_, fun eq ok => ?_, fun eq => (nomatch eq), h.calls⟩
    · have before := h.account o b
      rw [running.idle] at before
      have out : ¬ (c.ef = o ∧ 0 ≤ ehRetEventError) := fun both => absurd both.2 (by decide)
      simpa only [owed, if_neg out] using before
    · cases eq
      exact absurd ok (by decide)
  | park running tested =>
    obtain ⟨-, rfl⟩ := conditionEventFlags_false (deliverySystem_tested.mp tested)
    exact ⟨h.account, h.reality, h.acting, h.calls⟩
  | @finish c ret phase =>
    refine ⟨fun o b => ?_, fun eq => (nomatch eq), fun eq => (nomatch eq), h.calls⟩
    have before := h.account o b
    rw [phase, owed] at before
    have same : (deliverySystem T O w n).finish c v.self ret v.world =
      c.arg.finish v.self ret v.world := rfl
    rw [owed, List.append_nil, same, FlagsConditionArg.finish]
    by_cases fine : 0 ≤ ret
    · rw [if_neg (Int.not_lt.mpr fine)]
      by_cases eq : c.ef = o
      · rw [if_pos ⟨eq, fine⟩] at before
        subst eq
        simpa [Delivery.arg, ehEventFlagsWaitBitsSet, EventFlags.present] using before
      · rw [if_neg fun both => eq both.1, List.append_nil] at before
        simpa [Delivery.arg, ehEventFlagsWaitBitsSet, EventFlags.present, Ne.symm eq] using before
    · rw [if_pos (Int.not_le.mp fine)]
      rwa [if_neg fun both => fine both.2, List.append_nil] at before
  | @act a sleeping from_ woken =>
    have sets : a.sets = true := by
      rcases from_ with ⟨-, allowed⟩ | at_
      · exact ((Bool.and_eq_true _ _).mp allowed).2
      · exact h.acting at_
    have raises := v.world.raises_act sets
    refine ⟨fun o b => h.raise raises ?_, fun {c ret} eq => ?_, fun {b} eq => ?_, h.calls⟩
    · have before : owed v.world v.self o b v.phase = [] := by
        rcases from_ with ⟨eq, -⟩ | eq <;> rw [eq] <;> rfl
      rw [before]
      change owed _ _ o b (View.resting (v.world.act a).rest) = []
      cases (v.world.act a).rest <;> rfl
    · change View.resting (v.world.act a).rest = _ at eq
      cases rest : (v.world.act a).rest <;> rw [rest] at eq <;> cases eq
    · change View.resting (v.world.act a).rest = _ at eq
      cases rest : (v.world.act a).rest with
      | none =>
        rw [rest] at eq
        cases eq
      | some b =>
        rw [rest] at eq
        cases eq
        exact v.world.act_rest sets rest
  | @interrupt a calls sleeping from_ woken =>
    have sets : a.sets = true := by
      rcases from_ with ⟨allowed, -⟩ | ⟨j, at_, -⟩
      · exact ((Bool.and_eq_true _ _).mp allowed).2
      · exact h.calls a (List.mem_of_getElem? at_)
    have raises := v.world.raises_act sets
    refine ⟨fun o b => h.raise raises (owed_congr raises.taken v.self o b _), ?_, h.acting, ?_⟩
    · intro c ret eq fine pointer b
      have read := h.reality eq fine pointer b
      change ((v.world.act a).world.reality v.self).getLsbD b =
        ((v.world.act a).world.taken v.self b).isSome
      rw [raises.reality, raises.taken]
      exact read
    · intro b mem
      rw [List.mem_append] at mem
      rcases mem with old | new
      · rcases from_ with ⟨-, rfl⟩ | ⟨j, -, rfl⟩
        · exact h.calls b old
        · exact h.calls b (List.mem_of_mem_eraseIdx old)
      · exact v.world.act_rest sets (Option.mem_toList.mp new)
  | signal => exact ⟨h.account, h.reality, h.acting, h.calls⟩
  | unwatch => exact ⟨h.account, h.reality, h.acting, h.calls⟩

theorem DeliveryOk.cleared {n : Nat}
    {v v' : View T O P (EventFlags T O w) (Delivery O w) (FlagsCall O w)}
    {i : Option (Delivery O w)} (h : DeliveryOk v)
    (step : View.Step (deliverySystem T O w n) v i v') {o : O} {b : Nat}
    (set : (v.world.flags o).getLsbD b = true) (clear : (v'.world.flags o).getLsbD b = false) :
    ∃ c, v'.phase = .verdict c ehRetOk ∧ c.ef = o ∧
      v'.world.taken v'.self b = some (v.world.raised o b - 1) := by
  have same : v'.world.flags = v.world.flags → False := by
    intro eq
    rw [eq, set] at clear
    cases clear
  cases step with
  | @met c world running tested =>
    obtain ⟨-, rfl⟩ := conditionEventFlags_true (deliverySystem_tested.mp tested)
    refine ⟨c, rfl, ?_⟩
    by_cases eq : c.ef = o
    · subst eq
      refine ⟨rfl, ?_⟩
      have lt := BitVec.lt_of_getLsbD set
      have mask : c.waitFlags.getLsbD b = true := by
        simpa [EventFlags.store, Delivery.arg, ehEventFlagsWaitBitsSet, EventFlags.read,
          FlagsConditionArg.change, set, lt, -BitVec.getLsbD_eq_getElem] using clear
      simp [EventFlags.store, EventFlags.read, Delivery.arg, ehEventFlagsWaitBitsSet, set, mask]
    · exfalso
      simp [EventFlags.store, Delivery.arg, ehEventFlagsWaitBitsSet, EventFlags.read, Ne.symm eq,
        set] at clear
  | test running tested =>
    obtain ⟨-, rfl⟩ := conditionEventFlags_false (deliverySystem_tested.mp tested)
    exact (same rfl).elim
  | refused running tested =>
    obtain ⟨-, rfl⟩ := conditionEventFlags_false (deliverySystem_tested.mp tested)
    exact (same rfl).elim
  | park running tested =>
    obtain ⟨-, rfl⟩ := conditionEventFlags_false (deliverySystem_tested.mp tested)
    exact (same rfl).elim
  | @finish c ret phase =>
    refine (same ?_).elim
    change (c.arg.finish v.self ret v.world).flags = _
    rw [FlagsConditionArg.finish]
    split <;> rfl
  | @act a sleeping from_ =>
    have sets : a.sets = true := by
      rcases from_ with ⟨-, allowed⟩ | at_
      · exact ((Bool.and_eq_true _ _).mp allowed).2
      · exact h.acting at_
    have kept := (v.world.raises_act sets).kept set
    cases kept.symm.trans clear
  | @interrupt a calls sleeping from_ =>
    have sets : a.sets = true := by
      rcases from_ with ⟨allowed, -⟩ | ⟨j, at_, -⟩
      · exact ((Bool.and_eq_true _ _).mp allowed).2
      · exact h.calls a (List.mem_of_getElem? at_)
    have kept := (v.world.raises_act sets).kept set
    cases kept.symm.trans clear
  | _ => exact (same rfl).elim

variable {n : Nat} {main : T}
  {s : Eh T O P (EventFlags T O w) (Delivery O w) (FlagsCall O w)}

theorem deliveryOk_reachable
    (reachable : s.Reachable (deliverySystem T O w n) main EventFlags.create) :
    DeliveryOk s.view := by
  refine reachable.view (fun h step => h.step step)
    (fun h => ⟨h.account, h.reality, h.acting, h.calls⟩) ?_
  refine ⟨fun o b => ?_, fun eq => (nomatch eq), fun eq => (nomatch eq), fun a mem => (nomatch mem)⟩
  simp [View.init, owed, EventFlags.present, EventFlags.create]

/-- Every time a bit is raised, at most one successful wait returns it, and the bit goes away
with that wait; a wait that fails has taken nothing. -/
theorem ehEventFlags_delivered_once (n : Nat) (main : T)
    (s : Eh T O P (EventFlags T O w) (Delivery O w) (FlagsCall O w))
    (reachable : s.Reachable (deliverySystem T O w n) main EventFlags.create) (o : O) (b : Nat) :
    ((s.world.reported o b).Nodup ∧ ∀ k ∈ s.world.reported o b, k < s.world.raised o b) ∧
    (s.world.reported o b ++ owed s.world s.self o b s.view.phase ++
      s.world.present o b).Perm (List.range (s.world.raised o b)) ∧
    (∀ c ret, s.view.phase = .verdict c ret → 0 ≤ ret → c.realityFlags = true →
      ∀ k, (s.world.reality s.self).getLsbD k = (s.world.taken s.self k).isSome) ∧
    (∀ c ret, s.view.phase = .verdict c ret → ret < 0 →
      (s.world.reported o b ++ s.world.present o b).Perm (List.range (s.world.raised o b))) ∧
    (∀ l s', s.step (deliverySystem T O w n) l = some s' →
      (s.world.flags o).getLsbD b = true → (s'.world.flags o).getLsbD b = false →
      ∃ c, s'.view.phase = .verdict c ehRetOk ∧ c.ef = o ∧
        s'.world.taken s'.self b = some (s.world.raised o b - 1)) := by
  have ok := deliveryOk_reachable reachable
  have account : (s.world.reported o b ++ owed s.world s.self o b s.view.phase ++
      s.world.present o b).Perm (List.range (s.world.raised o b)) := ok.account o b
  refine ⟨⟨?_, ?_⟩, account, ?_, ?_, ?_⟩
  · have nodup := account.nodup_iff.mpr List.nodup_range
    exact (List.nodup_append.mp (List.nodup_append.mp nodup).1).1
  · intro k mem
    apply List.mem_range.mp
    apply account.subset
    simp [mem]
  · exact fun c ret at_ fine pointer => ok.reality at_ fine pointer
  · intro c ret at_ error
    have none : owed s.world s.self o b s.view.phase = [] := by
      rw [at_]
      exact if_neg fun both => absurd both.2 (Int.not_le.mpr error)
    rwa [none, List.append_nil] at account
  · intro l s' step set clear
    have same : s'.view = s.view → False := by
      intro eq
      have flags : s'.world.flags o = s.world.flags o := congrArg (fun v => v.world.flags o) eq
      rw [flags, set] at clear
      cases clear
    rcases Eh.step_steps reachable.invariant step with steps | ⟨p, x, rfl, watched⟩
    · generalize seen : s'.view = v at steps
      cases steps with
      | refl => exact (same seen).elim
      | single one => subst seen; exact ok.cleared one set clear
      | met _ one => subst seen; exact ok.cleared one set clear
    · have flags : s'.world.flags o = s.world.flags o :=
        congrArg (fun v => v.world.flags o) watched
      rw [flags, set] at clear
      cases clear

/-- Task 1 waits for one of two bits, main sets the first, and task 1 returns. -/
def delivered : List (Label Nat Unit Unit (Delivery Unit 8) (FlagsCall Unit 8)) :=
  [Label.thenGo (.create 1 false false) 0, Label.thenGo .yield 4,
    Label.thenGo (.wait ⟨.object ⟨(), 3, true⟩, ehTimeForever⟩) 6,
    Label.thenGo (.act (.ehEventFlagsSetBitsChangeNotify () 1)) 2, Label.thenGo .yield 5].flatten

theorem delivered_runs :
    (Eh.runs (deliverySystem Nat Unit 8 4) 0 EventFlags.create delivered).isSome = true := by
  decide +kernel

theorem delivered_reported :
    ((Eh.runs (deliverySystem Nat Unit 8 4) 0 EventFlags.create delivered).get
      delivered_runs).world.reported () 0 = [0] := by
  decide +kernel

theorem ehEventFlags_delivered_once_one :
    ∃ s : Eh Nat Unit Unit (EventFlags Nat Unit 8) (Delivery Unit 8) (FlagsCall Unit 8),
      s.Reachable (deliverySystem Nat Unit 8 4) 0 EventFlags.create ∧
        s.world.reported () 0 = [0] ∧ ∀ k ∈ s.world.reported () 0, k < s.world.raised () 0 := by
  have reachable := Eh.reachable_get delivered_runs
  have safe := ehEventFlags_delivered_once 4 0 _ reachable () 0
  exact ⟨_, reachable, delivered_reported, safe.1.2⟩

end EventHub.Sync
