import EventHub.Hashtbl.Rekey
import Mathlib.Algebra.Order.Field.Rat
import Mathlib.Tactic.FieldSimp
import Mathlib.Tactic.Linarith
import Mathlib.Tactic.NormNum

/-! How far a table grows. Its threshold is computed once and doubled with the table. -/

namespace EventHub.Hashtbl
open Library

def LoadFactor.value : LoadFactor → ℚ
  | finite negative mant exp => (if negative then -1 else 1) * (mant.val * 2 ^ exp)
  | inf _ | nan => 0

/-- A run's system, the largest count so far and how often the table has been doubled. -/
structure Grown where
  system : System
  largest : Nat
  doublings : Nat

def Grown.start (tbl : EhHashtbl) (node : Nat → EhHashtblNode) : Grown :=
  ⟨⟨⟨tbl, node⟩, [], [], 0⟩, tbl.count, 0⟩

def Grown.step (hash : List UInt8 → Nat) (g : Grown) (c : Change) : Option Grown :=
  (change hash g.system c).map fun s =>
    ⟨s, max g.largest s.mem.tbl.count,
      if s.mem.tbl.mask = g.system.mem.tbl.mask then g.doublings else g.doublings + 1⟩

def Doubles (s : System) (c : Change) : Prop :=
  ∃ x, c = .call (.insert x true) ∧ (s.mem.node x).linked = false ∧
    s.mem.tbl.threshold ≤ (s.mem.tbl.count + 1) % 4294967296 ∧ s.mem.tbl.mask ≠ 4294967295

/-- The threshold that is doubled with the table is neither zero nor lost in doubling. -/
def Sized (s : System) (c : Change) : Prop :=
  Doubles s c → 0 < s.mem.tbl.threshold ∧ s.mem.tbl.threshold < 2147483648

def Growth (hash : List UInt8 → Nat) (tbl : EhHashtbl) (node : Nat → EhHashtblNode)
    (cs : List Change) (g : Grown) : Prop :=
  Run (fun g c g' => c.Legal g.system ∧ g.step hash c = some g') (.start tbl node) cs g

section Counters
variable {hashVal : Nat → Nat} {hash : List UInt8 → Nat} {t : EhHashtbl} {s s' : System}
  {c : Change}

def EhHashtbl.sizes (t : EhHashtbl) : Nat × Nat := (t.mask, t.threshold)

theorem sizes_initIfNeeded (t : EhHashtbl) (i : Nat) : (t.initIfNeeded i).sizes = t.sizes ∧
    (t.initIfNeeded i).count = t.count := by
  unfold EhHashtbl.initIfNeeded
  split <;> exact ⟨rfl, rfl⟩

theorem sizes_remakeNode (hashVal : Nat → Nat) (old : Nat) (t : EhHashtbl) (x : Nat) :
    (remakeNode hashVal old t x).sizes = t.sizes ∧
      (remakeNode hashVal old t x).count = t.count := by
  unfold remakeNode
  dsimp only
  split
  · exact sizes_initIfNeeded (t.listDel x) _
  · exact ⟨rfl, rfl⟩

theorem sizes_tryRemake (hashVal : Nat → Nat) (t : EhHashtbl) (idx : Nat) :
    (ehHashtblTryRemake hashVal t idx).sizes = t.sizes ∧
      (ehHashtblTryRemake hashVal t idx).count = t.count := by
  have moved : ∀ (old : Nat) (l : List Nat) (t : EhHashtbl),
      (l.foldl (remakeNode hashVal old) t).sizes = t.sizes ∧
        (l.foldl (remakeNode hashVal old) t).count = t.count := by
    intro old l
    induction l with
    | nil => exact fun t => ⟨rfl, rfl⟩
    | cons x l ih =>
      intro t
      have first := sizes_remakeNode hashVal old t x
      have rest := ih (remakeNode hashVal old t x)
      exact ⟨rest.1.trans first.1, rest.2.trans first.2⟩
  unfold ehHashtblTryRemake
  split
  · have loop := moved (idx &&& madeMask t idx (t.mask >>> 1))
      (t.nodes (idx &&& madeMask t idx (t.mask >>> 1))) t
    have last := sizes_initIfNeeded (List.foldl (remakeNode hashVal
      (idx &&& madeMask t idx (t.mask >>> 1))) t
      (t.nodes (idx &&& madeMask t idx (t.mask >>> 1)))) idx
    exact ⟨last.1.trans loop.1, last.2.trans loop.2⟩
  · exact ⟨rfl, rfl⟩

theorem insert_sizes (m : Memory) (x : Nat) (alloc : Bool) :
    (ehHashtblInsert m x alloc).2.tbl.sizes = m.tbl.sizes ∨
    alloc = true ∧ (m.node x).linked = false ∧
      (m.tbl.threshold ≤ (m.tbl.count + 1) % 4294967296 ∧ m.tbl.mask ≠ 4294967295) ∧
      (ehHashtblInsert m x alloc).2.tbl.sizes = (ehHashtblResize m.tbl true).2.sizes ∧
      (ehHashtblInsert m x alloc).2.tbl.count = (m.tbl.count + 1) % 4294967296 := by
  by_cases linked : (m.node x).linked = true
  · rw [ehHashtblInsert, if_pos linked]
    exact .inl rfl
  rw [ehHashtblInsert, if_neg linked]
  by_cases doubles : (m.tbl.count + 1) % 4294967296 ≥ m.tbl.threshold ∧
      m.tbl.mask ≠ 4294967295
  · rw [if_pos doubles]
    cases alloc with
    | false => exact .inl rfl
    | true =>
      refine .inr ⟨rfl, by simpa using linked, doubles, ?_⟩
      obtain ⟨sizes, count⟩ := sizes_tryRemake m.hashVal (ehHashtblResize m.tbl true).2
        (m.hashVal x &&& (ehHashtblResize m.tbl true).2.mask)
      exact ⟨sizes, congrArg (fun n => (n + 1) % 4294967296) count⟩
  · rw [if_neg doubles]
    exact .inl (sizes_tryRemake m.hashVal m.tbl (m.hashVal x &&& m.tbl.mask)).1

theorem renew_sizes (m : Memory) (old valueLen : Nat) (alloc : Option Nat) :
    (ehHashtblNodeRenew m old valueLen alloc).2.tbl.sizes = m.tbl.sizes := by
  unfold ehHashtblNodeRenew
  split
  · rfl
  · cases alloc with
    | none => rfl
    | some x =>
      dsimp only
      unfold takeOver
      dsimp only
      split <;> rfl

theorem change_sizes (run : change hash s c = some s') :
    s'.mem.tbl.sizes = s.mem.tbl.sizes ∨
    Doubles s c ∧ s'.mem.tbl.sizes = (ehHashtblResize s.mem.tbl true).2.sizes ∧
      s'.mem.tbl.count = (s.mem.tbl.count + 1) % 4294967296 := by
  cases c with
  | rekey x key =>
    rw [change, ehHashtblNodeKeyRefresh_eq] at run
    split at run
    · cases run
    · obtain rfl := Option.some.inj run
      left
      dsimp only
      rw [rekeyed]
      split <;> rfl
  | call op =>
    obtain rfl := Option.some.inj run
    cases op with
    | new => exact .inl rfl
    | insert x alloc =>
      rcases insert_sizes s.mem x alloc with same | ⟨rfl, unlinked, doubles, sizes, count⟩
      · exact .inl same
      · exact .inr ⟨⟨x, rfl, unlinked, doubles⟩, sizes, count⟩
    | remove x =>
      left
      simp only [step, ehHashtblRemove]
      split <;> rfl
    | delete x =>
      left
      simp only [step, ehHashtblNodeDelete]
      split <;> rfl
    | renew x valueLen alloc =>
      have kept := renew_sizes s.mem x valueLen (if alloc then some s.fresh else none)
      left
      simp only [step]
      split
      · next mem renewed =>
        rw [renewed] at kept
        exact kept
      · next y mem renewed =>
        rw [renewed] at kept
        split <;> exact kept
    | find key =>
      rw [step, ehHashtblFind, findIn_mem]
      exact .inl (sizes_tryRemake ..).1
    | findWithString str =>
      rw [step, ehHashtblFindWithString, findIn_mem]
      exact .inl (sizes_tryRemake ..).1

end Counters

/-- The table and its threshold have been doubled together, the last time when the count
reached the threshold. -/
structure Doubled (first : Nat) (g : Grown) : Prop where
  mask : g.system.mem.tbl.mask + 1 = 16 * 2 ^ g.doublings
  threshold : g.system.mem.tbl.threshold = first * 2 ^ g.doublings
  small : g.doublings ≤ 27
  reached : g.doublings ≠ 0 → first * 2 ^ g.doublings ≤ 2 * g.largest ∧ 0 < first

theorem Doubled.step {hash : List UInt8 → Nat} {first : Nat} {g g' : Grown} {c : Change}
    (h : Doubled first g) (legal : c.Legal g.system) (sized : Sized g.system c)
    (run : g.step hash c = some g') : Doubled first g' := by
  obtain ⟨s, changed, rfl⟩ := Option.map_eq_some_iff.mp run
  rcases change_sizes changed with same | ⟨doubles, sizes, count⟩
  · obtain ⟨mask, thr⟩ := Prod.mk.inj same
    refine ⟨?_, ?_, ?_, ?_⟩
    · dsimp only
      rw [if_pos mask, mask]
      exact h.mask
    · dsimp only
      rw [if_pos mask, thr]
      exact h.threshold
    · dsimp only
      rw [if_pos mask]
      exact h.small
    · dsimp only
      rw [if_pos mask]
      intro some
      exact ⟨(h.reached some).1.trans (Nat.mul_le_mul_left 2 (le_max_left ..)), (h.reached some).2⟩
  · obtain ⟨positive, half⟩ := sized doubles
    obtain ⟨mask, thr⟩ := Prod.mk.inj sizes
    obtain ⟨x, rfl, -, due, -⟩ := doubles
    have full : g.system.mem.tbl.mask ≠ 2147483647 := legal.2 x rfl
    have less : g.doublings ≤ 26 := by
      by_contra top
      have small := h.small
      have whole := h.mask
      rw [show g.doublings = 27 by omega] at whole
      omega
    have power : 2 ^ g.doublings ≤ 2 ^ 26 := Nat.pow_le_pow_right (by decide) less
    have whole := h.mask
    have mask' : s.mem.tbl.mask = 2 * g.system.mem.tbl.mask + 1 := by
      rw [mask]
      simp only [ehHashtblResize, not_true_eq_false, if_false, Nat.shiftLeft_eq]
      omega
    have thr' : s.mem.tbl.threshold = 2 * g.system.mem.tbl.threshold := by
      rw [thr]
      simp only [ehHashtblResize, not_true_eq_false, if_false, Nat.shiftLeft_eq]
      omega
    have wider : s.mem.tbl.mask ≠ g.system.mem.tbl.mask := by omega
    have level := h.threshold
    refine ⟨?_, ?_, ?_, fun _ => ⟨?_, ?_⟩⟩
    · dsimp only
      rw [if_neg wider, Nat.pow_succ]
      omega
    · dsimp only
      rw [if_neg wider, thr', level, Nat.pow_succ]
      ring
    · dsimp only
      rw [if_neg wider]
      omega
    · dsimp only
      rw [if_neg wider, Nat.pow_succ, ← Nat.mul_assoc, ← level, Nat.mul_comm]
      refine Nat.mul_le_mul_left 2 ((due.trans count.ge).trans (le_max_right ..))
    · refine Nat.pos_of_ne_zero ?_
      rintro rfl
      rw [level] at positive
      simp at positive

theorem LoadFactor.threshold_floor {lf : LoadFactor} {threshold : Nat}
    (positive : lf.nonpositive = false) (defined : lf.threshold 4 = some threshold) :
    0 < lf.value ∧ 16 * lf.value < threshold + 1 := by
  cases lf with
  | inf _ => cases defined
  | nan => cases defined
  | finite negative mant exp =>
    obtain ⟨rfl, nonzero⟩ : negative = false ∧ mant.val ≠ 0 := by
      simpa [nonpositive] using positive
    have mantissa : (0 : ℚ) < mant.val := by exact_mod_cast Nat.pos_of_ne_zero nonzero
    have value : (finite false mant exp).value = mant.val * 2 ^ exp := by simp [LoadFactor.value]
    have sixteen : 16 * ((mant.val : ℚ) * 2 ^ exp) = mant.val * 2 ^ (exp + 4) := by
      rw [zpow_add₀ (by norm_num)]
      norm_num
      ring
    rw [value, sixteen]
    refine ⟨mul_pos mantissa (zpow_pos (by norm_num) _), ?_⟩
    simp only [LoadFactor.threshold, Nat.cast_ofNat] at defined
    by_cases large : 0 ≤ exp + 4
    · rw [if_pos large] at defined
      split at defined
      · rw [← Option.some.inj defined]
        obtain ⟨e, whole⟩ := Int.eq_ofNat_of_zero_le large
        rw [whole]
        simp
      · cases defined
    · rw [if_neg large] at defined
      split at defined
      · rw [← Option.some.inj defined]
        obtain ⟨e, part⟩ := Int.eq_ofNat_of_zero_le (show 0 ≤ -(exp + 4) by omega)
        rw [part, show exp + 4 = -(e : Int) by omega, zpow_neg, zpow_natCast, ← div_eq_mul_inv,
          div_lt_iff₀ (by positivity)]
        have := Nat.lt_div_mul_add (a := mant.val) (Nat.two_pow_pos e)
        have floor : mant.val < (mant.val / 2 ^ e + 1) * 2 ^ e := by
          rw [Nat.succ_mul]
          exact this
        simp only [Int.toNat_natCast]
        exact_mod_cast floor
      · cases defined

/-- While each doubling finds a threshold that is neither zero nor too large to be doubled, the
number of buckets is bounded by the largest count, and so is the count at which it wraps. -/
theorem ehHashtbl_growth {hash : List UInt8 → Nat} {lf : LoadFactor} {alloc : Bool × Bool}
    {tbl : EhHashtbl} {node : Nat → EhHashtblNode} {cs : List Change} {g : Grown}
    (created : ehHashtblCreate 4 lf alloc = .ok (some tbl))
    (run : Run (fun g c g' => (c.Legal g.system ∧ Sized g.system c) ∧ g.step hash c = some g')
      (.start tbl node) cs g) :
    ((g.system.mem.tbl.mask + 1 : Nat) : ℚ) ≤ max 16 (4 * g.largest / lf.value) ∧
    g.system.mem.tbl.mask + 1 = 16 * 2 ^ g.doublings ∧
    (g.system.mem.tbl.mask = 2147483647 → 2 ^ 29 * lf.value ≤ g.largest) := by
  obtain ⟨first, accepted, defined, rfl⟩ := create_eq created
  obtain ⟨positive, floor⟩ := lf.threshold_floor accepted defined
  have doubled : Doubled first g := by
    refine Run.invariant (I := Doubled first) ?_ run ⟨rfl, by simp [Grown.start], Nat.zero_le _,
      fun some => absurd rfl some⟩
    rintro g c g' inv ⟨⟨legal, sized⟩, step⟩
    exact inv.step legal sized step
  have bound : ((g.system.mem.tbl.mask + 1 : Nat) : ℚ) ≤ max 16 (4 * g.largest / lf.value) := by
    rw [doubled.mask]
    by_cases none : g.doublings = 0
    · rw [none]
      simp
    · obtain ⟨reached, some⟩ := doubled.reached none
      refine le_max_of_le_right ((le_div_iff₀ positive).mpr ?_)
      have reached : (first : ℚ) * 2 ^ g.doublings ≤ 2 * g.largest := by exact_mod_cast reached
      have some : (1 : ℚ) ≤ first := by exact_mod_cast some
      -- a floor that is not zero is more than half of what it was rounded from
      have half : 8 * lf.value ≤ first := by linarith
      have power : (0 : ℚ) < 2 ^ g.doublings := by positivity
      calc ((16 * 2 ^ g.doublings : Nat) : ℚ) * lf.value
          = 2 * ((8 * lf.value) * 2 ^ g.doublings) := by
            push_cast
            ring
        _ ≤ 2 * (first * 2 ^ g.doublings) := by gcongr
        _ ≤ 4 * g.largest := by linarith
  refine ⟨bound, doubled.mask, fun top => ?_⟩
  rw [top] at bound
  rcases le_max_iff.mp bound with small | large
  · norm_num at small
  · rw [le_div_iff₀ positive] at large
    norm_num at large ⊢
    linarith

theorem ehHashtbl_growth_one :
    ((sparseOne.mem.tbl.mask + 1 : Nat) : ℚ) ≤
      max 16 (4 * (1 : Nat) / (LoadFactor.finite false 1 (-4)).value) := by
  have run : Run (fun (g : Grown) (c : Change) g' =>
        (c.Legal g.system ∧ Sized g.system c) ∧ g.step fnv1a c = some g')
      (.start sparse (fun _ => ⟨false, 0, 0, []⟩)) [.call (.new [97] 4), .call (.insert 0 true)]
      ⟨sparseOne, 1, 1⟩ := by
    refine .cons ⟨⟨⟨(by decide : 1 < 65536), fun _ => nofun⟩, ?_⟩, rfl⟩
      (.single ⟨⟨⟨List.mem_cons_self .., ?_⟩, ?_⟩, rfl⟩)
    · rintro ⟨x, eq, -⟩
      cases eq
    · exact fun _ _ => (by decide : (15 : Nat) ≠ 2147483647)
    · exact fun _ => ⟨(by decide : 0 < 1), (by decide : 1 < 2147483648)⟩
  exact (ehHashtbl_growth sparse_created run).1

def tiny : EhHashtbl := ⟨fun i => if i < 2 ^ 4 then some [] else none, 15, 0, 0⟩

/-- Every insertion doubles the table, however few nodes it holds. -/
theorem ehHashtbl_growth_unbounded :
    ehHashtblCreate 4 (.finite false 15 (-8)) (true, true) = .ok (some tiny) ∧
    ∃ g, Growth fnv1a tiny (fun _ => ⟨false, 0, 0, []⟩)
        [.call (.new [66] 4), .call (.insert 0 true), .call (.remove 0), .call (.insert 0 true),
          .call (.remove 0), .call (.insert 0 true)] g ∧
      ¬((g.system.mem.tbl.mask + 1 : Nat) : ℚ) ≤
        max 16 (4 * g.largest / (LoadFactor.finite false 15 (-8)).value) := by
  have live : 0 ∈ [0] := List.mem_cons_self ..
  have narrow : ∀ m ∈ [15, 31, 63], m ≠ 2147483647 := by decide
  refine ⟨rfl, _, .cons ⟨⟨(by decide : 1 < 65536), fun _ => nofun⟩, rfl⟩
    (.cons ⟨⟨live, fun _ _ => narrow 15 (by decide)⟩, rfl⟩
    (.cons ⟨⟨live, fun _ => nofun⟩, rfl⟩
    (.cons ⟨⟨live, fun _ _ => narrow 31 (by decide)⟩, rfl⟩
    (.cons ⟨⟨live, fun _ => nofun⟩, rfl⟩
    (.single ⟨⟨live, fun _ _ => narrow 63 (by decide)⟩, rfl⟩))))), ?_⟩
  change ¬((128 : Nat) : ℚ) ≤ max 16 (4 * (1 : Nat) / (LoadFactor.finite false 15 (-8)).value)
  have value : (LoadFactor.finite false 15 (-8)).value = 15 / 256 := by
    change (1 : ℚ) * (((15 : Nat) : ℚ) * 2 ^ (-8 : Int)) = _
    norm_num
  rw [value]
  norm_num

end EventHub.Hashtbl
