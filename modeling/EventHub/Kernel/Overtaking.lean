import EventHub.Kernel.FirstInFirstOut

/-! System tasks among the others: a wake-up puts one at the front of the ready tasks. -/

namespace EventHub.Kernel
open Library Event

variable {T O P W C A : Type} [DecidableEq T] {sys : System T O W C A} {s s' : Eh T O P W C A}
  {l : Label T O P C A} {q : Turns T}

def Eh.urgent (s : Eh T O P W C A) (l : Label T O P C A) (t : T) : Bool :=
  match l with
  | .create _ isSystemTask _ => isSystemTask
  | _ => (s.sched.task t).isSystemTask

def Eh.RankedStep [DecidableEq O] [DecidableEq P] (sys : System T O W C A) (s : Eh T O P W C A)
    (ms : List (Ranked T)) (s' : Eh T O P W C A) : Prop :=
  ∃ l : Label T O P C A, s.step sys l = some s' ∧
    ms = (s.turns sys l).map (Turn.ranked (s.urgent l))

section Runs
variable [DecidableEq O] [DecidableEq P] {mss : List (List (Ranked T))}

theorem Eh.urgent_of_live (step : s.step sys l = some s') {t : T}
    (mem : .ready t ∈ s.turns sys l) (live : s.alive t = true) :
    s.urgent l t = (s.sched.task t).isSystemTask := by
  cases l with
  | create u system auto =>
    cases List.mem_singleton.mp mem
    cases Eh.step_cases step with
    | user at_ call =>
      cases Eh.user_cases call with
      | create system auto dead =>
        rw [dead] at live
        cases live
  | _ => rfl

theorem Shows.ranked_run (inv : Invariant sys s) (shows_ : Shows s q)
    (run : Run (Eh.RankedStep sys) s mss s') :
    Invariant sys s' ∧ ∃ q', Run Turns.RankedStep q mss.flatten q' ∧ Shows s' q' := by
  induction run with
  | nil => exact ⟨inv, q, .nil q, shows_⟩
  | @snoc mid after mss ms before last ih =>
    obtain ⟨inv', mid', turns, shown⟩ := ih
    obtain ⟨l, step, rfl⟩ := last
    obtain ⟨q', more, shown'⟩ := (Eh.scheduling inv' step).ranked inv' shown
      (mid.urgent l) (fun _ => Eh.urgent_of_live step) fun _ _ _ eq => by
        rw [eq]
        rfl
    refine ⟨inv'.step step, q', ?_, shown'⟩
    rw [List.flatten_append, List.flatten_singleton]
    exact turns.append more

/-- While a task is ready, it is overtaken by system tasks alone: those ahead of it and those
system tasks that have become ready since are the ones that have been switched to and the ones
that are still ahead of it. -/
theorem ehTaskNext_overtakes (sys : System T O W C A) (main : T) (world : W)
    {before after : List (List (Ranked T))} {s s' : Eh T O P W C A}
    (start : Run (Eh.RankedStep sys) (Eh.init main world) before s)
    (run : Run (Eh.RankedStep sys) s after s') {t : T} (live : s.alive t = true)
    (waits : t ≠ s.self) (ready : s.sched.state t = .ready)
    (unserved : t ∉ after.flatten.flatMap fun m => m.1.served) :
    ∃ q q' : Turns T, Shows s q ∧ Shows s' q' ∧ t ∈ q.queue ∧ t ∈ q'.queue ∧
      ((after.flatten.flatMap fun m => m.1.served) ++ q'.ahead t).Perm
        (q.ahead t ++ after.flatten.flatMap Ranked.urgent) := by
  have first : Shows (Eh.init main world : Eh T O P W C A) ⟨main, [], false⟩ :=
    ⟨rfl, Links.ring_singleton.mpr ⟨rfl, rfl⟩, rfl⟩
  obtain ⟨inv, q, -, shown⟩ := first.ranked_run (.init sys main world) start
  obtain ⟨-, q', turns, shown'⟩ := shown.ranked_run inv run
  have mem := (shown.mem_queue inv t).mpr ⟨live, waits, ready⟩
  obtain ⟨mem', who⟩ := Turns.ranked_run turns mem unserved
  exact ⟨q, q', shown, shown', mem, mem', who⟩

def Eh.rankedOf (sys : System T O W C A) (s : Eh T O P W C A) :
    List (Label T O P C A) → List (List (Ranked T))
  | [] => []
  | l :: ls =>
    (s.turns sys l).map (Turn.ranked (s.urgent l)) ::
      match s.step sys l with
      | some s' => s'.rankedOf sys ls
      | none => []

theorem Eh.rankedOf_run (ls : List (Label T O P C A))
    (runs : ls.foldlM (fun s l => Eh.step sys s l) s = some s') :
    Run (Eh.RankedStep sys) s (s.rankedOf sys ls) s' := by
  induction ls generalizing s with
  | nil =>
    cases runs
    exact .nil _
  | cons l ls ih =>
    rw [List.foldlM_cons] at runs
    obtain ⟨mid, step, rest⟩ := Option.bind_eq_some_iff.mp runs
    rw [Eh.rankedOf, step]
    exact .cons ⟨l, step, rfl⟩ (ih rest)

end Runs

def systemYield : List (Label Nat Unit Unit Unit Empty) :=
  .create 3 true false :: callThen .yield 4

theorem twoCreated_start : Run (Eh.RankedStep plain) (Eh.init 0 ())
    (Eh.rankedOf plain (Eh.init 0 ()) twoCreated) afterTwo :=
  Eh.rankedOf_run twoCreated (Option.some_get twoCreated_runs).symm

theorem systemYield_runs : (systemYield.foldlM (fun s l => Eh.step plain s l)
    afterTwo).isSome = true := rfl

theorem ehTaskNext_overtakes_system :
    (Eh.rankedOf plain afterTwo systemYield).flatten =
        [(.ready 3, true), (.switch 0 3 true, false)] ∧
      ∃ q q' : Turns Nat, Shows afterTwo q ∧ (3 :: q'.ahead 2).Perm (q.ahead 2 ++ [3]) := by
  have turns : (Eh.rankedOf plain afterTwo systemYield).flatten =
      [(.ready 3, true), (.switch 0 3 true, false)] := rfl
  refine ⟨turns, ?_⟩
  obtain ⟨q, q', shown, -, -, -, who⟩ := ehTaskNext_overtakes plain 0 () twoCreated_start
    (Eh.rankedOf_run systemYield (Option.some_get systemYield_runs).symm)
    (t := 2) rfl (by decide) rfl (by rw [turns]; decide)
  rw [turns] at who
  exact ⟨q, q', shown, who⟩

end EventHub.Kernel
