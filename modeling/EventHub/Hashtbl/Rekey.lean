import EventHub.Hashtbl.Lookup

/-! The walk over the nodes of one key, and new bytes in the key of a node that may be in
the table. -/

namespace EventHub.Hashtbl
open Library Library.Doubling

/-- `_eh_hashtbl_find_list_head`: the index of the bucket, remade if it waits. -/
def ehHashtblFindListHead (hash : List UInt8 → Nat) (m : Memory) (key : List UInt8) :
    Nat × Memory :=
  let idx := hash key &&& m.tbl.mask
  (idx, m.tryRemake idx)

/-- The nodes visited by `eh_hashtbl_for_each_with_key_safe`, in order. -/
def ehHashtblForEachWithKeySafe (hash : List UInt8 → Nat) (m : Memory) (key : List UInt8) :
    List Nat × Memory :=
  let (idx, m) := ehHashtblFindListHead hash m key
  ((m.tbl.nodes idx).filter fun x => (m.node x).key = key, m)

theorem ehHashtblForEachWithKeySafe_eq (hash : List UInt8 → Nat) (m : Memory)
    (key : List UInt8) : (ehHashtblForEachWithKeySafe hash m key).1 =
      ((m.tryRemake (hash key &&& m.tbl.mask)).tbl.nodes (hash key &&& m.tbl.mask)).filter
        fun x => (m.node x).key = key := rfl

def Memory.writeKey (m : Memory) (x : Nat) (key : List UInt8) : Memory :=
  m.setNode x { m.node x with key }

/-- `none` where the `next` of a bucket that waits to be remade is followed. -/
def ehHashtblNodeKeyRefresh (hash : List UInt8 → Nat) (m : Memory) (x : Nat) :
    Option Memory :=
  let m := m.setNode x { m.node x with hashVal := hash (m.node x).key }
  if (m.node x).linked then
    let idx := m.hashVal x &&& m.tbl.mask
    let t := m.tbl.listDel x
    if t.isNeedRemake idx then none else some { m with tbl := t.listAdd x idx }
  else some m

inductive Change
  | call (op : Op)
  | rekey (x : Nat) (key : List UInt8)

/-- The request for `2 ^ 32` buckets wraps to one for no bytes, which fails. A key keeps its
length. -/
def Change.Legal (s : System) : Change → Prop
  | call op => op.Legal s ∧ ∀ x, op = .insert x true → s.mem.tbl.mask ≠ 2147483647
  | rekey x key => x ∈ s.live ∧ key.length = (s.mem.node x).key.length

def change (hash : List UInt8 → Nat) (s : System) : Change → Option System
  | .call op => some (step hash s op)
  | .rekey x key =>
    (ehHashtblNodeKeyRefresh hash (s.mem.writeKey x key) x).map fun mem => { s with mem }

def Changes (hash : List UInt8 → Nat) (tbl : EhHashtbl) (node : Nat → EhHashtblNode)
    (cs : List Change) (s : System) : Prop :=
  Run (fun s c t => c.Legal s ∧ change hash s c = some t) ⟨⟨tbl, node⟩, [], [], 0⟩ cs s

section Placed
variable {hashVal : Nat → Nat} {t : EhHashtbl} {shift k x : Nat} {stored stored' : List Nat}

theorem Placed.perm (h : Placed shift hashVal stored t k) (p : stored.Perm stored') :
    Placed shift hashVal stored' t k :=
  ⟨h.mask, h.least, h.made, h.bound, fun x i => (h.mem x i).trans (by rw [p.mem_iff]), h.nodup⟩

/-- A node that goes to the bucket of another hash. -/
theorem Placed.rehash (h : Placed shift hashVal stored t k) (distinct : stored.Nodup)
    (mem : x ∈ stored) {hashVal' : Nat → Nat} (same : ∀ y, y ≠ x → hashVal' y = hashVal y)
    (made : t.isMade (hashVal' x % 2 ^ k)) :
    Placed shift hashVal' stored ((t.listDel x).listAdd x (hashVal' x % 2 ^ k)) k := by
  have without : Placed shift hashVal' (stored.erase x) (t.listDel x) k :=
    (h.delete distinct).congr rfl rfl fun y mem => same y ((distinct.mem_erase_iff).mp mem).1
  have out : x ∉ stored.erase x := fun mem => ((distinct.mem_erase_iff).mp mem).1 rfl
  exact (without.insert out (by simpa using made)).perm (List.perm_cons_erase mem).symm

end Placed

/-- The memory after new bytes in the key of `x` and the refresh. -/
def rekeyed (hash : List UInt8 → Nat) (s : System) (x : Nat) (key : List UInt8) : Memory :=
  let m := s.mem.setNode x { s.mem.node x with key, hashVal := hash key }
  if (s.mem.node x).linked then
    { m with tbl := (m.tbl.listDel x).listAdd x (hash key &&& m.tbl.mask) }
  else m

section Rekeyed
variable {hash : List UInt8 → Nat} {s : System} {x y : Nat} {key : List UInt8}

theorem setNode_tbl (m : Memory) (x : Nat) (node : EhHashtblNode) :
    (m.setNode x node).tbl = m.tbl := rfl

theorem ehHashtblNodeKeyRefresh_eq (hash : List UInt8 → Nat) (s : System) (x : Nat)
    (key : List UInt8) : ehHashtblNodeKeyRefresh hash (s.mem.writeKey x key) x =
      if (s.mem.node x).linked ∧ s.mem.tbl.isMade (hash key &&& s.mem.tbl.mask) = false then
        none
      else some (rekeyed hash s x key) := by
  have written : (s.mem.writeKey x key).setNode x
      { (s.mem.writeKey x key).node x with
        hashVal := hash ((s.mem.writeKey x key).node x).key } =
      s.mem.setNode x { s.mem.node x with key, hashVal := hash key } := by
    simp [Memory.writeKey, Memory.setNode]
  have node : (s.mem.setNode x { s.mem.node x with key, hashVal := hash key }).node x =
      { s.mem.node x with key, hashVal := hash key } := by simp [Memory.setNode]
  rw [ehHashtblNodeKeyRefresh, written, rekeyed]
  dsimp only
  rw [node, Memory.hashVal, node, setNode_tbl]
  simp only [EhHashtbl.isNeedRemake_eq, EhHashtbl.isMade_listDel, Bool.not_eq_true']
  by_cases linked : (s.mem.node x).linked = true
  · rw [if_pos linked, if_pos linked]
    refine if_congr ?_ rfl rfl
    simp [linked]
  · rw [if_neg linked, if_neg linked, if_neg fun both => linked both.1]

theorem rekeyed_node : (rekeyed hash s x key).node y =
    if y = x then { s.mem.node x with key, hashVal := hash key } else s.mem.node y := by
  have set : (s.mem.setNode x { s.mem.node x with key, hashVal := hash key }).node y =
      if y = x then { s.mem.node x with key, hashVal := hash key } else s.mem.node y := by
    by_cases eq : y = x <;> simp [Memory.setNode, eq]
  rw [rekeyed]
  dsimp only
  split <;> exact set

theorem rekeyed_hashVal : (rekeyed hash s x key).hashVal y =
    if y = x then hash key else s.mem.hashVal y := by
  rw [Memory.hashVal, rekeyed_node]
  split <;> rfl

theorem rekeyed_count : (rekeyed hash s x key).tbl.count = s.mem.tbl.count := by
  rw [rekeyed]
  split <;> rfl

theorem rekeyed_threshold : (rekeyed hash s x key).tbl.threshold = s.mem.tbl.threshold := by
  rw [rekeyed]
  split <;> rfl

end Rekeyed

namespace Inv
variable {hash : List UInt8 → Nat} {shift k : Nat} {s : System} {x : Nat} {key : List UInt8}

theorem rekey (h : Inv hash shift s k) (live : x ∈ s.live)
    (made : x ∈ s.inserted → s.mem.tbl.isMade (hash key % 2 ^ k)) :
    Inv hash shift { s with mem := rekeyed hash s x key } k := by
  have placed : Placed shift (rekeyed hash s x key).hashVal s.inserted
      (rekeyed hash s x key).tbl k := by
    have same : ∀ y, y ≠ x → (rekeyed hash s x key).hashVal y = s.mem.hashVal y := fun y ne => by
      rw [rekeyed_hashVal, if_neg ne]
    have own : (rekeyed hash s x key).hashVal x = hash key := by
      rw [rekeyed_hashVal, if_pos rfl]
    by_cases mem : x ∈ s.inserted
    · have moved := h.placed.rehash h.nodup mem same (by rw [own]; exact made mem)
      refine moved.congr ?_ ?_ fun y _ => rfl
      · rw [own, ← h.hashVal_mask, rekeyed, if_pos ((h.linked x live).mpr mem)]
        rfl
      · rw [rekeyed, if_pos ((h.linked x live).mpr mem)]
        rfl
    · have out : ¬(s.mem.node x).linked = true := fun linked => mem ((h.linked x live).mp linked)
      refine h.placed.congr ?_ ?_ fun y held => same y fun eq => mem (eq ▸ held)
      · rw [rekeyed, if_neg out]
        rfl
      · rw [rekeyed, if_neg out]
        rfl
  refine ⟨placed, h.nodup, rekeyed_count.trans h.count, ?_, ?_, fun y live => ?_, h.held,
    h.distinct, fun y live => ?_, h.fresh⟩
  · dsimp only
    rw [rekeyed_count]
    exact h.room
  · dsimp only
    rw [rekeyed_threshold]
    exact h.threshold
  · dsimp only
    rw [rekeyed_node]
    split
    · next eq =>
      rw [eq]
      exact h.linked x (eq ▸ live)
    · exact h.linked y live
  · dsimp only
    rw [rekeyed_hashVal, rekeyed_node]
    split
    · rfl
    · exact h.hashed y live

theorem visit_mem (h : Inv hash shift s k) (min : 3 ≤ shift) :
    x ∈ (ehHashtblForEachWithKeySafe hash s.mem key).1 ↔
      x ∈ s.inserted ∧ (s.mem.node x).key = key := by
  obtain ⟨inv, made⟩ := h.tryRemake min (hash key)
  have bucket : x ∈ (s.mem.tryRemake (hash key &&& s.mem.tbl.mask)).tbl.nodes
      (hash key &&& s.mem.tbl.mask) ↔ x ∈ s.inserted ∧
        home (s.mem.tryRemake (hash key &&& s.mem.tbl.mask)).tbl.isMade (s.mem.hashVal x) k =
          hash key &&& s.mem.tbl.mask := inv.placed.mem x _
  rw [ehHashtblForEachWithKeySafe_eq, List.mem_filter, bucket, decide_eq_true_iff, and_assoc]
  refine and_congr_right fun mem => ⟨fun both => both.2, fun same => ⟨?_, same⟩⟩
  have here : s.mem.hashVal x = hash key := same ▸ h.hashed x (h.held x mem)
  rw [here, h.hashVal_mask] at *
  exact home_of_made made

end Inv

theorem changes_inv {hash : List UInt8 → Nat} {shift : Nat} {lf : LoadFactor}
    {alloc : Bool × Bool} {tbl : EhHashtbl} {node : Nat → EhHashtblNode} {cs : List Change}
    {s : System} (min : 3 ≤ shift) (max : shift ≤ 30)
    (created : ehHashtblCreate shift lf alloc = .ok (some tbl))
    (run : Changes hash tbl node cs s) : ∃ k, Inv hash shift s k ∧ k ≤ 31 := by
  refine Run.invariant (I := fun s => ∃ k, Inv hash shift s k ∧ k ≤ 31) ?_ run
    ⟨shift, create_inv created, by omega⟩
  rintro s c t ⟨k, inv, small⟩ ⟨legal, run⟩
  cases c with
  | call op =>
    obtain rfl := Option.some.inj run
    refine inv.step_ok min small legal.1 fun x eq => ?_
    have room := legal.2 x eq
    rw [inv.placed.mask] at room
    by_contra full
    obtain rfl : k = 31 := by omega
    exact room rfl
  | rekey x key =>
    rw [change, ehHashtblNodeKeyRefresh_eq] at run
    split at run
    · cases run
    · next kept =>
      obtain rfl := Option.some.inj run
      refine ⟨k, inv.rekey legal.1 fun mem => ?_, small⟩
      rw [← inv.hashVal_mask]
      by_contra pending
      exact kept ⟨(inv.linked x legal.1).mpr mem, by simpa using pending⟩

structure Rekeyed (hash : List UInt8 → Nat) (s : System) (x : Nat) (key : List UInt8)
    (m : Memory) : Prop where
  count : m.tbl.count = s.mem.tbl.count
  once : (ehHashtblForEachSafe m.tbl).Perm s.inserted
  found : (ehHashtblFind hash m key).1.1 = retOk
  visited : x ∈ (ehHashtblForEachWithKeySafe hash m key).1
  others : ∀ y ∈ s.inserted, y ≠ x → (m.node y).key = (s.mem.node y).key ∧
    (ehHashtblFind hash m (s.mem.node y).key).1.1 = retOk ∧
    y ∈ (ehHashtblForEachWithKeySafe hash m (s.mem.node y).key).1

/-- The refresh works exactly where the bucket of the new hash has been made. -/
theorem ehHashtblNodeKeyRefresh_sound_iff {hash : List UInt8 → Nat} {shift : Nat}
    {lf : LoadFactor} {alloc : Bool × Bool} {tbl : EhHashtbl} {node : Nat → EhHashtblNode}
    {cs : List Change} {s : System} (min : 3 ≤ shift) (max : shift ≤ 30)
    (created : ehHashtblCreate shift lf alloc = .ok (some tbl))
    (run : Changes hash tbl node cs s) {x : Nat} {key : List UInt8} (mem : x ∈ s.inserted) :
    (∃ m, ehHashtblNodeKeyRefresh hash (s.mem.writeKey x key) x = some m ∧
      Rekeyed hash s x key m) ↔
    s.mem.tbl.isNeedRemake (hash key &&& s.mem.tbl.mask) = false := by
  obtain ⟨k, inv, -⟩ := changes_inv min max created run
  have live := inv.held x mem
  have linked := (inv.linked x live).mpr mem
  rw [ehHashtblNodeKeyRefresh_eq, EhHashtbl.isNeedRemake_eq]
  constructor
  · rintro ⟨m, refreshed, -⟩
    by_contra pending
    rw [if_pos ⟨linked, by simpa using pending⟩] at refreshed
    cases refreshed
  · intro made
    have made : s.mem.tbl.isMade (hash key &&& s.mem.tbl.mask) = true := by simpa using made
    rw [if_neg (by simp [made])]
    have inv' : Inv hash shift { s with mem := rekeyed hash s x key } k :=
      inv.rekey live fun _ => by rw [← inv.hashVal_mask]; exact made
    have sound := inv'.sound min
    have own : ((rekeyed hash s x key).node x).key = key := by rw [rekeyed_node, if_pos rfl]
    refine ⟨_, rfl, rekeyed_count, sound.for_each, (sound.find_ok key).mpr ⟨x, mem, own⟩,
      (inv'.visit_mem min).mpr ⟨mem, own⟩, fun y held ne => ?_⟩
    have same : ((rekeyed hash s x key).node y).key = (s.mem.node y).key := by
      rw [rekeyed_node, if_neg ne]
    exact ⟨same, (sound.find_ok _).mpr ⟨y, held, same⟩, (inv'.visit_mem min).mpr ⟨held, same⟩⟩

def sparse : EhHashtbl := ⟨fun i => if i < 2 ^ 4 then some [] else none, 15, 1, 0⟩

def sparseOne : System :=
  let s : System := ⟨⟨sparse, fun _ => ⟨false, 0, 0, []⟩⟩, [], [], 0⟩
  step fnv1a (step fnv1a s (.new [97] 4)) (.insert 0 true)

theorem sparseOne_run : Changes fnv1a sparse (fun _ => ⟨false, 0, 0, []⟩)
    [.call (.new [97] 4), .call (.insert 0 true)] sparseOne :=
  .cons ⟨⟨(by decide : ([97] : List UInt8).length < 65536), fun x eq => (nomatch eq)⟩, rfl⟩
    (.single ⟨⟨List.mem_cons_self .., fun x _ => (by decide : (15 : Nat) ≠ 2147483647)⟩, rfl⟩)

theorem sparse_created :
    ehHashtblCreate 4 (.finite false 1 (-4)) (true, true) = .ok (some sparse) := rfl

theorem ehHashtblNodeKeyRefresh_sound_iff_one :
    ∃ m, ehHashtblNodeKeyRefresh fnv1a (sparseOne.mem.writeKey 0 [98]) 0 = some m ∧
      Rekeyed fnv1a sparseOne 0 [98] m :=
  (ehHashtblNodeKeyRefresh_sound_iff (by decide) (by decide) sparse_created sparseOne_run
    (List.mem_cons_self ..)).mpr rfl

/-- The key `c` hashes into the upper half, which has not been made. -/
theorem ehHashtblNodeKeyRefresh_follows_null :
    ehHashtblCreate 4 (.finite false 1 (-4)) (true, true) = .ok (some sparse) ∧
    Changes fnv1a sparse (fun _ => ⟨false, 0, 0, []⟩)
      [.call (.new [97] 4), .call (.insert 0 true)] sparseOne ∧
    0 ∈ sparseOne.inserted ∧ [99].length = (sparseOne.mem.node 0).key.length ∧
    ¬∃ m, ehHashtblNodeKeyRefresh fnv1a (sparseOne.mem.writeKey 0 [99]) 0 = some m ∧
      Rekeyed fnv1a sparseOne 0 [99] m := by
  have null : ehHashtblNodeKeyRefresh fnv1a (sparseOne.mem.writeKey 0 [99]) 0 = none := rfl
  refine ⟨sparse_created, sparseOne_run, List.mem_cons_self .., rfl, ?_⟩
  rintro ⟨m, refreshed, -⟩
  rw [null] at refreshed
  cases refreshed

end EventHub.Hashtbl
