import EventHub.Hashtbl.Remake
import EventHub.Library.Transition

/-! Runs of a hash table. `live` are the nodes allocated and not freed, `inserted` those
the table is to hold: the functions never read them. -/

namespace EventHub.Hashtbl
open Library Library.Doubling

namespace Memory
variable (m : Memory) (x y : Nat) (b : Bool)

theorem setLinked_linked :
    ((m.setLinked x b).node y).linked = if y = x then b else (m.node y).linked := by
  unfold setLinked setNode
  by_cases h : y = x
  · simp [h]
  · simp [h]

theorem setLinked_key : ((m.setLinked x b).node y).key = (m.node y).key := by
  unfold setLinked setNode
  by_cases h : y = x
  · simp [h]
  · simp [h]

theorem setLinked_hashVal : (m.setLinked x b).hashVal y = m.hashVal y := by
  unfold setLinked setNode hashVal
  by_cases h : y = x
  · simp [h]
  · simp [h]

end Memory

structure System where
  mem : Memory
  live : List Nat
  inserted : List Nat
  fresh : Nat

inductive Op
  | new (key : List UInt8) (valueLen : Nat)
  | insert (x : Nat) (alloc : Bool)
  | remove (x : Nat)
  | delete (x : Nat)
  | renew (x valueLen : Nat) (alloc : Bool)
  | find (key : List UInt8)
  | findWithString (str : List UInt8)

def Op.Legal (s : System) : Op → Prop
  | new key _ => key.length < 65536
  | insert x _ | remove x | delete x | renew x _ _ => x ∈ s.live
  | find _ | findWithString _ => True

def step (hash : List UInt8 → Nat) (s : System) : Op → System
  | .new key valueLen =>
    { s with
      mem := ehHashtblNodeNewRefresh hash s.mem s.fresh key valueLen
      live := s.fresh :: s.live
      fresh := s.fresh + 1 }
  | .insert x alloc =>
    let (ret, mem) := ehHashtblInsert s.mem x alloc
    { s with mem, inserted := if ret = retOk then x :: s.inserted else s.inserted }
  | .remove x => { s with mem := ehHashtblRemove s.mem x, inserted := s.inserted.erase x }
  | .delete x =>
    { s with
      mem := ehHashtblNodeDelete s.mem x
      live := s.live.erase x
      inserted := s.inserted.erase x }
  | .renew x valueLen alloc =>
    match ehHashtblNodeRenew s.mem x valueLen (if alloc then some s.fresh else none) with
    | (none, mem) => { s with mem }
    | (some y, mem) =>
      if y = x then { s with mem }
      else {
        mem
        live := y :: s.live.erase x
        inserted := s.inserted.map (substitute x y)
        fresh := s.fresh + 1 }
  | .find key => { s with mem := (ehHashtblFind hash s.mem key).2 }
  | .findWithString str => { s with mem := (ehHashtblFindWithString hash s.mem str).2 }

def Reach (hash : List UInt8 → Nat) (tbl : EhHashtbl) (node : Nat → EhHashtblNode)
    (ops : List Op) (s : System) : Prop :=
  Run (fun s op t => op.Legal s ∧ s.mem.tbl.mask + 1 < 2 ^ 31 ∧ step hash s op = t)
    ⟨⟨tbl, node⟩, [], [], 0⟩ ops s

structure Sound (hash : List UInt8 → Nat) (s : System) : Prop where
  count : s.mem.tbl.count = s.inserted.length
  nodup : s.inserted.Nodup
  find_ok : ∀ key, (ehHashtblFind hash s.mem key).1.1 = retOk ↔
    ∃ x ∈ s.inserted, (s.mem.node x).key = key
  find_out : ∀ key, (ehHashtblFind hash s.mem key).1.1 = retOk →
    ∃ x ∈ s.inserted, (ehHashtblFind hash s.mem key).1.2 = some x ∧ (s.mem.node x).key = key
  for_each : (ehHashtblForEachSafe s.mem.tbl).Perm s.inserted
  destroy : (ehHashtblDestroy s.mem.tbl).Perm s.inserted
  insert_error : ∀ x alloc, (ehHashtblInsert s.mem x alloc).1 ≠ retOk →
    (ehHashtblInsert s.mem x alloc).2 = s.mem

structure Inv (hash : List UInt8 → Nat) (shift : Nat) (s : System) (k : Nat) : Prop where
  placed : Placed shift s.mem.hashVal s.inserted s.mem.tbl k
  nodup : s.inserted.Nodup
  count : s.mem.tbl.count = s.inserted.length
  room : s.mem.tbl.count + shift + 256 ≤ 2 ^ 32 + k
  threshold : ∃ mant exp, mant < 2 ^ 24 ∧ s.mem.tbl.threshold = mant * 2 ^ exp % 2 ^ 32
  linked : ∀ x ∈ s.live, (s.mem.node x).linked ↔ x ∈ s.inserted
  held : ∀ x ∈ s.inserted, x ∈ s.live
  distinct : s.live.Nodup
  hashed : ∀ x ∈ s.live, s.mem.hashVal x = hash (s.mem.node x).key
  fresh : ∀ x ∈ s.live, x < s.fresh

theorem threshold_le {mant : Nat} (lt : mant < 2 ^ 24) (exp : Nat) :
    mant * 2 ^ exp % 2 ^ 32 ≤ 2 ^ 32 - 256 := by
  by_cases small : exp < 8
  · have : mant * 2 ^ exp ≤ (2 ^ 24 - 1) * 2 ^ 7 :=
      Nat.mul_le_mul (by omega) (Nat.pow_le_pow_right (by decide) (by omega))
    omega
  · obtain ⟨e, rfl⟩ : ∃ e, exp = e + 8 := ⟨exp - 8, by omega⟩
    rw [Nat.pow_add, ← Nat.mul_assoc]
    omega

theorem findIn_mem (m : Memory) (key : List UInt8) (hashVal : Nat) :
    (findIn m key hashVal).2 = m.tryRemake (hashVal &&& m.tbl.mask) := by
  unfold findIn
  dsimp only
  split <;> rfl

theorem findIn_result (m : Memory) (key : List UInt8) (hashVal : Nat) :
    (findIn m key hashVal).1 =
      match ((m.tryRemake (hashVal &&& m.tbl.mask)).tbl.nodes (hashVal &&& m.tbl.mask)).find?
        fun x => (m.node x).key = key with
      | some x => (retOk, some x)
      | none => (retNotExists, none) := by
  unfold findIn
  dsimp only
  split <;> rename_i found <;> erw [found]

theorem ehHashtblFindWithString_eq {hash : List UInt8 → Nat} {m : Memory} {str : List UInt8}
    (short : str.length < 65536) :
    ehHashtblFindWithString hash m str = ehHashtblFind hash m str := by
  rw [ehHashtblFindWithString, Nat.mod_eq_of_lt short, List.take_length]
  rfl

namespace Inv
variable {hash : List UInt8 → Nat} {shift k : Nat} {s : System} {x : Nat}

theorem hashVal_mask (h : Inv hash shift s k) (hashVal : Nat) :
    hashVal &&& s.mem.tbl.mask = hashVal % 2 ^ k := by
  rw [h.placed.mask, Nat.and_two_pow_sub_one_eq_mod]

theorem not_fresh (h : Inv hash shift s k) : s.fresh ∉ s.live := fun mem =>
  absurd (h.fresh _ mem) (Nat.lt_irrefl _)

theorem new (h : Inv hash shift s k) (key : List UInt8) (valueLen : Nat) :
    Inv hash shift (step hash s (.new key valueLen)) k := by
  have outside : ∀ y ∈ s.live, y ≠ s.fresh := fun y mem => (h.fresh y mem).ne
  have same : ∀ y ∈ s.live, (step hash s (.new key valueLen)).mem.node y = s.mem.node y :=
    fun y mem => Function.update_of_ne (outside y mem) ..
  have new : (step hash s (.new key valueLen)).mem.node s.fresh =
      ⟨false, hash key, valueLen, key⟩ := Function.update_self ..
  refine ⟨h.placed.congr rfl rfl fun y mem => ?_, h.nodup, h.count, h.room, h.threshold,
    ?_, ?_, ?_, ?_, ?_⟩
  · simp only [Memory.hashVal, same y (h.held y mem)]
  · intro y mem
    rcases List.mem_cons.mp mem with rfl | mem
    · rw [new]
      exact ⟨fun false => (Bool.false_ne_true false).elim,
        fun held => absurd (h.held s.fresh held) h.not_fresh⟩
    · rw [same y mem]
      exact h.linked y mem
  · exact fun y mem => List.mem_cons_of_mem _ (h.held y mem)
  · exact List.nodup_cons.mpr ⟨h.not_fresh, h.distinct⟩
  · intro y mem
    rcases List.mem_cons.mp mem with rfl | mem
    · simp [Memory.hashVal, new]
    · simp only [Memory.hashVal, same y mem]
      exact h.hashed y mem
  · intro y mem
    rcases List.mem_cons.mp mem with rfl | mem
    · exact Nat.lt_succ_self _
    · exact Nat.lt_succ_of_lt (h.fresh y mem)

theorem tryRemake (h : Inv hash shift s k) (min : 3 ≤ shift) (hashVal : Nat) :
    Inv hash shift { s with mem := s.mem.tryRemake (hashVal &&& s.mem.tbl.mask) } k ∧
      (s.mem.tryRemake (hashVal &&& s.mem.tbl.mask)).tbl.isMade (hashVal % 2 ^ k) := by
  obtain ⟨placed, made, threshold, count⟩ := h.placed.tryRemake (by
    have := h.placed.least
    omega) (Nat.mod_lt hashVal (Nat.two_pow_pos k))
  rw [h.hashVal_mask]
  refine ⟨⟨placed, h.nodup, count.trans h.count, ?_, ?_, h.linked, h.held, h.distinct,
    h.hashed, h.fresh⟩, made⟩
  · exact le_of_eq_of_le (by rw [← count]; rfl) h.room
  · obtain ⟨mant, exp, lt, eq⟩ := h.threshold
    exact ⟨mant, exp, lt, threshold.trans eq⟩

theorem unlink (h : Inv hash shift s k) (small : k ≤ 31) (mem : x ∈ s.inserted) :
    Placed shift s.mem.hashVal (s.inserted.erase x) (s.mem.tbl.listDel x) k ∧
      (s.mem.tbl.count + 4294967295) % 4294967296 = (s.inserted.erase x).length ∧
      (s.inserted.erase x).length ≤ s.mem.tbl.count := by
  have length := List.length_erase_of_mem mem
  have positive := List.length_pos_of_mem mem
  have count := h.count
  have room := h.room
  exact ⟨h.placed.delete h.nodup, by omega, by omega⟩

theorem remove (h : Inv hash shift s k) (small : k ≤ 31) (live : x ∈ s.live) :
    Inv hash shift (step hash s (.remove x)) k := by
  by_cases linked : (s.mem.node x).linked
  · have mem := (h.linked x live).mp linked
    obtain ⟨placed, count, less⟩ := h.unlink small mem
    have run : (step hash s (.remove x)) = ⟨⟨{ s.mem.tbl.listDel x with
        count := (s.mem.tbl.count + 4294967295) % 4294967296 }, (s.mem.setLinked x false).node⟩,
        s.live, s.inserted.erase x, s.fresh⟩ := by
      simp only [step, ehHashtblRemove, if_pos linked]
    rw [run]
    refine ⟨placed.congr rfl rfl fun y _ => Memory.setLinked_hashVal .., h.nodup.erase x, count,
      ?_, h.threshold, fun y live => ?_, fun y mem => h.held y (List.mem_of_mem_erase mem),
      h.distinct, fun y live => ?_, h.fresh⟩
    · have := h.room
      dsimp only
      omega
    · rw [h.nodup.mem_erase_iff, Memory.setLinked_linked, ← h.linked y live]
      by_cases eq : y = x <;> simp [eq]
    · exact (Memory.setLinked_hashVal ..).trans
        ((h.hashed y live).trans (congrArg hash (Memory.setLinked_key ..).symm))
  · have out : x ∉ s.inserted := fun mem => linked ((h.linked x live).mpr mem)
    have run : step hash s (.remove x) = s := by
      simp only [step, ehHashtblRemove, if_neg linked, List.erase_of_not_mem out]
    rw [run]
    exact h

theorem delete (h : Inv hash shift s k) (small : k ≤ 31) (live : x ∈ s.live) :
    Inv hash shift (step hash s (.delete x)) k := by
  have stays : ∀ y ∈ s.live.erase x, y ∈ s.live ∧ y ≠ x := fun y mem =>
    ((h.distinct.mem_erase_iff).mp mem).symm
  by_cases linked : (s.mem.node x).linked
  · have mem := (h.linked x live).mp linked
    obtain ⟨placed, count, less⟩ := h.unlink small mem
    have run : (step hash s (.delete x)) = ⟨⟨{ s.mem.tbl.listDel x with
        count := (s.mem.tbl.count + 4294967295) % 4294967296 }, s.mem.node⟩,
        s.live.erase x, s.inserted.erase x, s.fresh⟩ := by
      simp only [step, ehHashtblNodeDelete, if_pos linked]
    rw [run]
    refine ⟨placed.congr rfl rfl fun y _ => rfl, h.nodup.erase x, count, ?_, h.threshold,
      fun y mem => ?_, fun y mem => ?_, h.distinct.erase x,
      fun y mem => h.hashed y (stays y mem).1, fun y mem => h.fresh y (stays y mem).1⟩
    · have := h.room
      dsimp only
      omega
    · rw [h.nodup.mem_erase_iff, h.linked y (stays y mem).1]
      simp [(stays y mem).2]
    · rw [h.nodup.mem_erase_iff] at mem
      exact (h.distinct.mem_erase_iff).mpr ⟨mem.1, h.held y mem.2⟩
  · have out : x ∉ s.inserted := fun mem => linked ((h.linked x live).mpr mem)
    have run : step hash s (.delete x) = { s with live := s.live.erase x } := by
      simp only [step, ehHashtblNodeDelete, if_neg linked, List.erase_of_not_mem out]
    rw [run]
    refine ⟨h.placed, h.nodup, h.count, h.room, h.threshold,
      fun y mem => h.linked y (stays y mem).1, fun y mem => ?_, h.distinct.erase x,
      fun y mem => h.hashed y (stays y mem).1, fun y mem => h.fresh y (stays y mem).1⟩
    exact (h.distinct.mem_erase_iff).mpr ⟨fun eq => out (eq ▸ mem), h.held y mem⟩

theorem renew (h : Inv hash shift s k) (live : x ∈ s.live) (valueLen : Nat) (alloc : Bool) :
    Inv hash shift (step hash s (.renew x valueLen alloc)) k := by
  by_cases same : (s.mem.node x).valueLen = valueLen
  · have run : step hash s (.renew x valueLen alloc) = s := by
      simp [step, ehHashtblNodeRenew, same]
    rw [run]
    exact h
  cases alloc with
  | false =>
    have run : step hash s (.renew x valueLen false) = s := by
      simp [step, ehHashtblNodeRenew, same]
    rw [run]
    exact h
  | true =>
    have ne : s.fresh ≠ x := fun eq => h.not_fresh (eq ▸ live)
    have run : step hash s (.renew x valueLen true) = ⟨takeOver s.mem x s.fresh valueLen,
        s.fresh :: s.live.erase x, s.inserted.map (substitute x s.fresh), s.fresh + 1⟩ := by
      simp [step, ehHashtblNodeRenew, same, ne]
    have out : s.fresh ∉ s.inserted := fun mem => h.not_fresh (h.held _ mem)
    have node : ∀ y, (takeOver s.mem x s.fresh valueLen).node y =
        if y = s.fresh then { s.mem.node x with valueLen } else s.mem.node y := by
      intro y
      have set : (s.mem.setNode s.fresh { s.mem.node x with valueLen }).node y =
          if y = s.fresh then { s.mem.node x with valueLen } else s.mem.node y := by
        unfold Memory.setNode
        by_cases eq : y = s.fresh <;> simp [eq]
      unfold takeOver
      dsimp only
      split <;> exact set
    have hashVal : ∀ y, (takeOver s.mem x s.fresh valueLen).hashVal y =
        s.mem.hashVal (if y = s.fresh then x else y) := by
      intro y
      rw [Memory.hashVal, node]
      split <;> rfl
    have counters : (takeOver s.mem x s.fresh valueLen).tbl.count = s.mem.tbl.count ∧
        (takeOver s.mem x s.fresh valueLen).tbl.threshold = s.mem.tbl.threshold := by
      unfold takeOver
      dsimp only
      split <;> exact ⟨rfl, rfl⟩
    have placed : Placed shift (takeOver s.mem x s.fresh valueLen).hashVal
        (s.inserted.map (substitute x s.fresh)) (takeOver s.mem x s.fresh valueLen).tbl k := by
      have old : Placed shift (takeOver s.mem x s.fresh valueLen).hashVal s.inserted
          s.mem.tbl k := h.placed.congr rfl rfl fun y mem => by
        rw [hashVal, if_neg (show y ≠ s.fresh from fun eq => out (eq ▸ mem))]
      by_cases linked : (s.mem.node x).linked
      · refine old.replace out ne.symm (by rw [hashVal, hashVal, if_pos rfl, if_neg ne.symm])
          ?_ fun i => ?_
        · simp only [takeOver, if_pos linked]
          rfl
        · simp only [takeOver, if_pos linked]
          rfl
      · have notIn : x ∉ s.inserted := fun mem => linked ((h.linked x live).mpr mem)
        have keep : s.inserted.map (substitute x s.fresh) = s.inserted := by
          refine (List.map_congr_left fun y mem => ?_).trans s.inserted.map_id
          exact if_neg fun eq : y = x => notIn (eq ▸ mem)
        rw [keep]
        refine old.congr ?_ ?_ fun y mem => rfl
        · simp only [takeOver, if_neg linked]
          rfl
        · simp only [takeOver, if_neg linked]
          rfl
    have mem' : ∀ y, y ∈ s.inserted.map (substitute x s.fresh) ↔
        if y = s.fresh then x ∈ s.inserted else y ≠ x ∧ y ∈ s.inserted := fun y =>
      mem_map_substitute out ne.symm
    have stays : ∀ y ∈ s.live.erase x, y ∈ s.live ∧ y ≠ x ∧ y ≠ s.fresh := fun y mem => by
      obtain ⟨ne, mem⟩ := (h.distinct.mem_erase_iff).mp mem
      exact ⟨mem, ne, fun eq => h.not_fresh (eq ▸ mem)⟩
    rw [run]
    refine ⟨placed, h.nodup.map_on (substitute_injOn out), ?_, ?_, ?_, fun y mem => ?_,
      fun y mem => ?_, ?_, fun y mem => ?_, fun y mem => ?_⟩
    · rw [counters.1, List.length_map]
      exact h.count
    · rw [counters.1]
      exact h.room
    · rw [counters.2]
      exact h.threshold
    · rw [node, mem']
      rcases List.mem_cons.mp mem with rfl | mem
      · rw [if_pos rfl, if_pos rfl]
        exact h.linked x live
      · obtain ⟨inLive, neX, neFresh⟩ := stays y mem
        rw [if_neg neFresh, if_neg neFresh, h.linked y inLive]
        simp [neX]
    · rw [mem'] at mem
      by_cases eq : y = s.fresh
      · simp [eq]
      · rw [if_neg eq] at mem
        exact List.mem_cons_of_mem _
          ((h.distinct.mem_erase_iff).mpr ⟨mem.1, h.held y mem.2⟩)
    · exact List.nodup_cons.mpr ⟨fun mem => (stays _ mem).2.2 rfl, h.distinct.erase x⟩
    · rw [hashVal, node]
      rcases List.mem_cons.mp mem with rfl | mem
      · rw [if_pos rfl, if_pos rfl]
        exact h.hashed x live
      · rw [if_neg (stays y mem).2.2, if_neg (stays y mem).2.2]
        exact h.hashed y (stays y mem).1
    · rcases List.mem_cons.mp mem with rfl | mem
      · exact Nat.lt_succ_self _
      · exact Nat.lt_succ_of_lt (h.fresh y (stays y mem).1)

theorem enlarged (h : Inv hash shift s k) (small : k ≤ 31) {t : EhHashtbl} {alloc : Bool}
    (some : alloc = true → k ≤ 30)
    (enlarge : (if (s.mem.tbl.count + 1) % 4294967296 ≥ s.mem.tbl.threshold ∧
      s.mem.tbl.mask ≠ 4294967295 then ehHashtblResize s.mem.tbl alloc else (retOk, s.mem.tbl)) =
      (retOk, t)) :
    ∃ k', Inv hash shift { s with mem := { s.mem with tbl := t } } k' ∧
      t.count + 1 + shift + 256 ≤ 2 ^ 32 + k' ∧ k' ≤ 31 := by
  have room := h.room
  split at enlarge
  · cases alloc with
    | false => cases enlarge
    | true =>
      obtain rfl : (ehHashtblResize s.mem.tbl true).2 = t := congrArg Prod.snd enlarge
      refine ⟨k + 1, ⟨h.placed.resize (some rfl), h.nodup, h.count, ?_, ?_, h.linked, h.held,
        h.distinct, h.hashed, h.fresh⟩, ?_, Nat.succ_le_succ (some rfl)⟩
      · exact room.trans (Nat.le_succ _)
      · obtain ⟨mant, exp, lt, eq⟩ := h.threshold
        refine ⟨mant, exp + 1, lt, ?_⟩
        have double : (ehHashtblResize s.mem.tbl true).2.threshold =
            (s.mem.tbl.threshold <<< 1) % 4294967296 := rfl
        rw [double, eq, Nat.shiftLeft_eq, Nat.pow_succ 2 exp, ← Nat.mul_assoc mant]
        omega
      · have same : (ehHashtblResize s.mem.tbl true).2.count = s.mem.tbl.count := rfl
        omega
  · rename_i below
    obtain rfl : s.mem.tbl = t := congrArg Prod.snd enlarge
    refine ⟨k, h, ?_, small⟩
    obtain ⟨mant, exp, lt, eq⟩ := h.threshold
    have bound := threshold_le lt exp
    have size : 2 ^ k ≤ 2 ^ 31 := Nat.pow_le_pow_right (by decide) small
    have mask := h.placed.mask
    have least := h.placed.least
    omega

theorem insert_run {t : EhHashtbl} {alloc : Bool}
    (h : Inv hash shift { s with mem := { s.mem with tbl := t } } k)
    (linked : ¬(s.mem.node x).linked)
    (enlarge : (if (s.mem.tbl.count + 1) % 4294967296 ≥ s.mem.tbl.threshold ∧
      s.mem.tbl.mask ≠ 4294967295 then ehHashtblResize s.mem.tbl alloc else (retOk, s.mem.tbl)) =
      (retOk, t)) :
    let t₁ := ehHashtblTryRemake s.mem.hashVal t (s.mem.hashVal x % 2 ^ k)
    step hash s (.insert x alloc) = ⟨⟨
      { t₁.listAdd x (s.mem.hashVal x % 2 ^ k) with count := (t₁.count + 1) % 4294967296 },
      (s.mem.setLinked x true).node⟩, s.live, x :: s.inserted, s.fresh⟩ := by
  have mask : s.mem.hashVal x &&& t.mask = s.mem.hashVal x % 2 ^ k :=
    h.hashVal_mask (s.mem.hashVal x)
  simp only [step, ehHashtblInsert, if_neg linked, enlarge, mask]
  rfl

theorem insert (h : Inv hash shift s k) (min : 3 ≤ shift) (small : k ≤ 31) (live : x ∈ s.live)
    {alloc : Bool} (some : alloc = true → k ≤ 30) :
    ∃ k', Inv hash shift (step hash s (.insert x alloc)) k' ∧ k' ≤ 31 := by
  have unchanged : ∀ ret, ehHashtblInsert s.mem x alloc = (ret, s.mem) → ret ≠ retOk →
      Inv hash shift (step hash s (.insert x alloc)) k := by
    intro ret run failed
    have same : step hash s (.insert x alloc) = s := by simp [step, run, failed]
    rw [same]
    exact h
  by_cases linked : (s.mem.node x).linked
  · exact ⟨k, unchanged retExists (if_pos linked) (by decide), small⟩
  generalize enlarge : (if (s.mem.tbl.count + 1) % 4294967296 ≥ s.mem.tbl.threshold ∧
    s.mem.tbl.mask ≠ 4294967295 then ehHashtblResize s.mem.tbl alloc
    else (retOk, s.mem.tbl)) = pair
  obtain ⟨ret, t⟩ := pair
  by_cases failed : ret = retOk
  · subst failed
    obtain ⟨k', inv, room, level⟩ := h.enlarged small some enlarge
    have out : x ∉ s.inserted := fun mem => linked ((h.linked x live).mpr mem)
    obtain ⟨remade, made⟩ := inv.tryRemake min (s.mem.hashVal x)
    rw [inv.hashVal_mask] at remade made
    have run := inv.insert_run linked enlarge
    let t₁ := ehHashtblTryRemake s.mem.hashVal t (s.mem.hashVal x % 2 ^ k')
    have count : t₁.count = s.inserted.length := remade.count
    have keep : t₁.count = t.count := count.trans inv.count.symm
    have least : shift ≤ k' := remade.placed.least
    have length : (t₁.count + 1) % 4294967296 = s.inserted.length + 1 := by
      omega
    rw [run]
    refine ⟨k', ⟨(remade.placed.insert out made).congr rfl rfl fun y _ =>
      Memory.setLinked_hashVal .., List.nodup_cons.mpr ⟨out, h.nodup⟩, length, ?_,
      remade.threshold, fun y live => ?_, fun y mem => ?_, h.distinct, fun y live => ?_,
      h.fresh⟩, level⟩
    · change (t₁.count + 1) % 4294967296 + shift + 256 ≤ 2 ^ 32 + k'
      omega
    · rw [Memory.setLinked_linked]
      by_cases eq : y = x
      · simp [eq]
      · simp [eq, h.linked y live]
    · rcases List.mem_cons.mp mem with rfl | mem
      · exact live
      · exact h.held y mem
    · exact (Memory.setLinked_hashVal ..).trans
        ((h.hashed y live).trans (congrArg hash (Memory.setLinked_key ..).symm))
  · refine ⟨k, unchanged ret ?_ failed, small⟩
    rw [ehHashtblInsert, if_neg linked, enlarge]
    exact if_pos failed

theorem step_ok (h : Inv hash shift s k) (min : 3 ≤ shift) (small : k ≤ 31) {op : Op}
    (legal : op.Legal s) (some : ∀ x, op = .insert x true → k ≤ 30) :
    ∃ k', Inv hash shift (step hash s op) k' ∧ k' ≤ 31 := by
  cases op with
  | new key valueLen => exact ⟨k, h.new key valueLen, small⟩
  | insert x alloc => exact h.insert min small legal fun eq => some x (by rw [eq])
  | remove x => exact ⟨k, h.remove small legal, small⟩
  | delete x => exact ⟨k, h.delete small legal, small⟩
  | renew x valueLen alloc => exact ⟨k, h.renew legal valueLen alloc, small⟩
  | find key =>
    refine ⟨k, ?_, small⟩
    rw [step, ehHashtblFind, findIn_mem]
    exact (h.tryRemake min _).1
  | findWithString str =>
    refine ⟨k, ?_, small⟩
    rw [step, ehHashtblFindWithString, findIn_mem]
    exact (h.tryRemake min _).1

theorem findIn_spec (h : Inv hash shift s k) (min : 3 ≤ shift) (key : List UInt8) :
    (∃ x ∈ s.inserted, (findIn s.mem key (hash key)).1 = (retOk, some x) ∧
      (s.mem.node x).key = key) ∨
    (findIn s.mem key (hash key)).1 = (retNotExists, none) ∧
      ∀ x ∈ s.inserted, (s.mem.node x).key ≠ key := by
  obtain ⟨inv, made⟩ := h.tryRemake min (hash key)
  have bucket : ∀ x, x ∈ (s.mem.tryRemake (hash key &&& s.mem.tbl.mask)).tbl.nodes
      (hash key &&& s.mem.tbl.mask) ↔
      x ∈ s.inserted ∧ home (s.mem.tryRemake (hash key &&& s.mem.tbl.mask)).tbl.isMade
        (s.mem.hashVal x) k = hash key % 2 ^ k := fun x => by
    rw [← h.hashVal_mask (hash key)]
    exact inv.placed.mem x _
  rw [findIn_result]
  cases found : ((s.mem.tryRemake (hash key &&& s.mem.tbl.mask)).tbl.nodes
      (hash key &&& s.mem.tbl.mask)).find? fun x => (s.mem.node x).key = key with
  | some x =>
    exact .inl ⟨x, ((bucket x).mp (List.mem_of_find?_eq_some found)).1, rfl,
      by simpa using List.find?_some found⟩
  | none =>
    refine .inr ⟨rfl, fun x mem same => ?_⟩
    have here : hash key = s.mem.hashVal x := same ▸ (h.hashed x (h.held x mem)).symm
    have inBucket := (bucket x).mpr ⟨mem, by rw [← here]; exact home_of_made made⟩
    have := List.find?_eq_none.mp found x inBucket
    simp [same] at this

theorem nodes_disjoint (h : Inv hash shift s k) {i j : Nat} (ne : i ≠ j) :
    List.Disjoint (s.mem.tbl.nodes i) (s.mem.tbl.nodes j) := fun x memI memJ =>
  ne (((h.placed.mem x i).mp memI).2.symm.trans ((h.placed.mem x j).mp memJ).2)

theorem flatMap_perm (h : Inv hash shift s k) :
    ((List.range (s.mem.tbl.mask + 1)).flatMap s.mem.tbl.nodes).Perm s.inserted := by
  have size : s.mem.tbl.mask + 1 = 2 ^ k := by
    have := Nat.two_pow_pos k
    rw [h.placed.mask]
    omega
  refine (List.perm_ext_iff_of_nodup ?_ h.nodup).mpr fun x => ?_
  · refine List.nodup_flatMap.mpr ⟨fun i _ => h.placed.nodup i, ?_⟩
    exact List.nodup_range.imp fun ne => h.nodes_disjoint ne
  · simp only [List.mem_flatMap, List.mem_range, h.placed.mem, size]
    constructor
    · rintro ⟨i, -, mem, -⟩
      exact mem
    · exact fun mem => ⟨_, home_lt, mem, rfl⟩

theorem forEachSafe_eq (t : EhHashtbl) :
    ehHashtblForEachSafe t = (List.range (t.mask + 1)).flatMap t.nodes := by
  refine List.flatMap_congr fun i _ => ?_
  by_cases made : t.isMade i
  · simp [made]
  · simp [made, t.nodes_of_pending i (by simpa using made)]

end Inv

theorem foldl_listDel {t : EhHashtbl} {l : List Nat} {i : Nat}
    (out : ∀ x ∈ l, x ∉ t.nodes i) :
    (l.foldl EhHashtbl.listDel t).isMade i = t.isMade i ∧
      (l.foldl EhHashtbl.listDel t).nodes i = t.nodes i := by
  induction l generalizing t with
  | nil => exact ⟨rfl, rfl⟩
  | cons x l ih =>
    have keep : (t.listDel x).nodes i = t.nodes i := by
      rw [EhHashtbl.nodes_listDel, List.erase_of_not_mem (out x (by simp))]
    obtain ⟨made, nodes⟩ := ih (t := t.listDel x) fun y mem => by
      rw [keep]
      exact out y (by simp [mem])
    exact ⟨made.trans (EhHashtbl.isMade_listDel ..), nodes.trans keep⟩

theorem destroyFrom_eq {t : EhHashtbl} {is : List Nat} (distinct : is.Nodup)
    (disjoint : ∀ i ∈ is, ∀ j ∈ is, i ≠ j → List.Disjoint (t.nodes i) (t.nodes j)) :
    destroyFrom t is = is.flatMap t.nodes := by
  induction is generalizing t with
  | nil => rfl
  | cons i is ih =>
    obtain ⟨fresh, distinct⟩ := List.nodup_cons.mp distinct
    rw [destroyFrom, List.flatMap_cons]
    by_cases made : t.isMade i
    · have kept : ∀ j ∈ is, ((t.nodes i).foldl EhHashtbl.listDel t).nodes j = t.nodes j :=
        fun j mem => (foldl_listDel fun x inI inJ =>
          disjoint i (by simp) j (by simp [mem]) (fun eq => fresh (eq ▸ mem)) inI inJ).2
      rw [if_neg (by simp [made]), ih distinct, List.flatMap_congr kept]
      intro j memJ l memL ne
      rw [kept j memJ, kept l memL]
      exact disjoint j (by simp [memJ]) l (by simp [memL]) ne
    · rw [if_pos (by simp [made]), ih distinct, t.nodes_of_pending i (by simpa using made)]
      · rfl
      · exact fun j memJ l memL => disjoint j (by simp [memJ]) l (by simp [memL])

theorem Inv.sound {hash : List UInt8 → Nat} {shift k : Nat} {s : System}
    (h : Inv hash shift s k) (min : 3 ≤ shift) : Sound hash s where
  count := h.count
  nodup := h.nodup
  find_ok key := by
    rcases h.findIn_spec min key with ⟨x, mem, found, same⟩ | ⟨missing, other⟩
    · rw [ehHashtblFind, found]
      exact ⟨fun _ => ⟨x, mem, same⟩, fun _ => rfl⟩
    · rw [ehHashtblFind, missing]
      refine ⟨fun ok => absurd ok (by decide), ?_⟩
      rintro ⟨x, mem, same⟩
      exact absurd same (other x mem)
  find_out key ok := by
    rcases h.findIn_spec min key with ⟨x, mem, found, same⟩ | ⟨missing, -⟩
    · exact ⟨x, mem, congrArg Prod.snd found, same⟩
    · rw [ehHashtblFind, missing] at ok
      exact absurd ok (by decide)
  for_each := by
    rw [Inv.forEachSafe_eq]
    exact h.flatMap_perm
  destroy := by
    rw [ehHashtblDestroy, destroyFrom_eq List.nodup_range fun i _ j _ => h.nodes_disjoint]
    exact h.flatMap_perm
  insert_error x alloc failed := by
    by_cases linked : (s.mem.node x).linked
    · exact congrArg Prod.snd (if_pos linked)
    · rw [ehHashtblInsert, if_neg linked] at failed ⊢
      generalize (if (s.mem.tbl.count + 1) % 4294967296 ≥ s.mem.tbl.threshold ∧
        s.mem.tbl.mask ≠ 4294967295 then ehHashtblResize s.mem.tbl alloc
        else (retOk, s.mem.tbl)) = pair at failed ⊢
      obtain ⟨ret, t⟩ := pair
      dsimp only at failed ⊢
      by_cases ok : ret = retOk
      · rw [if_neg (not_not.mpr ok)] at failed
        exact absurd rfl failed
      · rw [if_pos ok]

/-- A threshold computed from a `float` has at most 24 significant bits. -/
theorem LoadFactor.threshold_form {lf : LoadFactor} {shift threshold : Nat}
    (defined : lf.threshold shift = some threshold) :
    ∃ mant exp, mant < 2 ^ 24 ∧ threshold = mant * 2 ^ exp % 2 ^ 32 := by
  cases lf with
  | inf _ => cases defined
  | nan => cases defined
  | finite negative mant exp =>
    obtain ⟨value, form, fits⟩ : ∃ value, (∃ m e, m < 2 ^ 24 ∧ value = m * 2 ^ e) ∧
        (if value < 4294967296 then some value else none) = some threshold := by
      refine ⟨_, ?_, defined⟩
      split
      · exact ⟨mant, _, mant.isLt, rfl⟩
      · exact ⟨_, 0, (Nat.div_le_self ..).trans_lt mant.isLt, (Nat.mul_one _).symm⟩
    obtain ⟨m, e, lt, rfl⟩ := form
    split at fits
    · rename_i small
      exact ⟨m, e, lt, (Option.some.inj fits).symm.trans (Nat.mod_eq_of_lt small).symm⟩
    · cases fits

theorem create_eq {shift : Nat} {lf : LoadFactor} {alloc : Bool × Bool} {tbl : EhHashtbl}
    (created : ehHashtblCreate shift lf alloc = .ok (some tbl)) :
    ∃ threshold, lf.nonpositive = false ∧ lf.threshold shift = some threshold ∧
      tbl = ⟨fun i => if i < 2 ^ shift then some [] else none, 2 ^ shift - 1, threshold, 0⟩ := by
  unfold ehHashtblCreate at created
  split at created
  · cases created
  · next positive =>
    split at created
    · cases created
    split at created
    · cases created
    · next threshold defined =>
      split at created
      · cases created
      · cases created
        exact ⟨threshold, by simpa using positive, defined, rfl⟩

theorem create_inv {hash : List UInt8 → Nat} {shift : Nat} {lf : LoadFactor}
    {alloc : Bool × Bool} {tbl : EhHashtbl} {node : Nat → EhHashtblNode}
    (created : ehHashtblCreate shift lf alloc = .ok (some tbl)) :
    Inv hash shift ⟨⟨tbl, node⟩, [], [], 0⟩ shift := by
  obtain ⟨threshold, -, defined, rfl⟩ := create_eq created
  have nodes : ∀ i, EhHashtbl.nodes ⟨fun i => if i < 2 ^ shift then some [] else none,
      2 ^ shift - 1, threshold, 0⟩ i = [] := by
    intro i
    unfold EhHashtbl.nodes
    dsimp only
    split <;> rfl
  refine ⟨⟨rfl, le_refl _, fun i small => ?_, fun i large => ?_, fun x i => ?_, fun i => ?_⟩,
    .nil, rfl, ?_, lf.threshold_form defined, by simp, by simp, .nil, by simp, by simp⟩
  · simp [EhHashtbl.isMade, EhHashtbl.isNeedRemake, small]
  · simp [EhHashtbl.isMade, EhHashtbl.isNeedRemake, Nat.not_lt.mpr large]
  · simp [nodes]
  · rw [nodes]
    exact .nil
  · dsimp only
    omega

theorem ehHashtbl_keeps_nodes {hash : List UInt8 → Nat} {shift : Nat} {lf : LoadFactor}
    {alloc : Bool × Bool} {tbl : EhHashtbl} {node : Nat → EhHashtblNode} {ops : List Op}
    {s : System} (min : 3 ≤ shift) (created : ehHashtblCreate shift lf alloc = .ok (some tbl))
    (reach : Reach hash tbl node ops s) : Sound hash s := by
  obtain ⟨k, inv⟩ : ∃ k, Inv hash shift s k := by
    refine Run.invariant (I := fun s => ∃ k, Inv hash shift s k) ?_ reach
      ⟨shift, create_inv created⟩
    rintro s op t ⟨k, inv⟩ ⟨legal, small, rfl⟩
    rw [inv.placed.mask, Nat.sub_add_cancel (Nat.two_pow_pos k)] at small
    have small : k ≤ 30 :=
      Nat.le_of_lt_succ ((Nat.pow_lt_pow_iff_right (by decide)).mp small)
    obtain ⟨k', inv', -⟩ := inv.step_ok min (Nat.le_succ_of_le small) legal fun _ _ => small
    exact ⟨k', inv'⟩
  exact inv.sound min

instance (s : System) : (op : Op) → Decidable (op.Legal s)
  | .new _ _ => inferInstanceAs (Decidable (_ < _))
  | .insert _ _ | .remove _ | .delete _ | .renew _ _ _ => inferInstanceAs (Decidable (_ ∈ _))
  | .find _ | .findWithString _ => inferInstanceAs (Decidable True)

def sixteen : EhHashtbl := ⟨fun i => if i < 2 ^ 4 then some [] else none, 15, 2, 0⟩

/-- Two keys of one bucket; the insertion of the second one makes the table grow, where memory can
be allocated, and the search for the first one moves its node to a bucket of its own. -/
def growth : List Op :=
  [.new [99] 4, .new [115] 4, .insert 0 true, .insert 1 false, .insert 1 true, .find [99]]

def growthRuns : Option System :=
  growth.foldlM (fun s op =>
    if op.Legal s ∧ s.mem.tbl.mask + 1 < 2 ^ 31 then some (step fnv1a s op) else none)
    ⟨⟨sixteen, fun _ => ⟨false, 0, 0, []⟩⟩, [], [], 0⟩

theorem growthRuns_isSome : growthRuns.isSome = true := by decide +kernel

theorem ehHashtbl_keeps_nodes_grown : ∃ s,
    ehHashtblCreate 4 (.finite false 1 (-3)) (true, true) = .ok (some sixteen) ∧
      Reach fnv1a sixteen (fun _ => ⟨false, 0, 0, []⟩) growth s ∧ s.mem.tbl.mask = 31 ∧
      s.inserted = [1, 0] ∧ s.mem.tbl.nodes 2 = [1] ∧ s.mem.tbl.nodes 18 = [0] ∧
      Sound fnv1a s := by
  have created : ehHashtblCreate 4 (.finite false 1 (-3)) (true, true) = .ok (some sixteen) := rfl
  have reach : Reach fnv1a sixteen (fun _ => ⟨false, 0, 0, []⟩) growth
      (growthRuns.get growthRuns_isSome) := by
    refine (Run.of_foldlM_some (Option.some_get growthRuns_isSome).symm).imp fun step => ?_
    split at step
    · next allowed => exact ⟨allowed.1, allowed.2, Option.some.inj step⟩
    · cases step
  exact ⟨_, created, reach, by decide +kernel, by decide +kernel, by decide +kernel,
    by decide +kernel, ehHashtbl_keeps_nodes (by decide) created reach⟩

end EventHub.Hashtbl
