import EventHub.Hashtbl.Order

/-! Lookups by string. A string is the bytes from its pointer on, and its terminator stands
behind them. -/

namespace EventHub.Hashtbl
open Library Library.Doubling

/-- The loop of `fnv1a_str`. -/
def fnv1aStrFrom (hash len : Nat) : List UInt8 → Nat × Nat
  | [] => (hash, len % 65536)
  | b :: rest =>
    if b = 0 then (hash, len % 65536)
    else fnv1aStrFrom ((hash ^^^ b.toNat) * 16777619 % 4294967296) (len + 1) rest

def fnv1aStr (str : List UInt8) : Nat × Nat := fnv1aStrFrom 2166136261 0 str

/-- `strncmp` of the standard library; the terminators stand behind the lists. -/
def strncmp : Nat → List UInt8 → List UInt8 → Int
  | 0, _, _ => 0
  | n + 1, a, b =>
    if a.headD 0 ≠ b.headD 0 then (a.headD 0).toNat - (b.headD 0).toNat
    else if a.headD 0 = 0 then 0
    else strncmp n a.tail b.tail

def ehHashtblFindListHeadWithString (m : Memory) (keyStr : List UInt8) : Nat × Memory :=
  let idx := (fnv1aStr keyStr).1 &&& m.tbl.mask
  (idx, m.tryRemake idx)

/-- The nodes visited by `eh_hashtbl_for_each_with_string_safe`, in order. -/
def ehHashtblForEachWithStringSafe (m : Memory) (str : List UInt8) : List Nat × Memory :=
  let (idx, m) := ehHashtblFindListHeadWithString m str
  ((m.tbl.nodes idx).filter fun x => strncmp (m.node x).key.length (m.node x).key str = 0, m)

theorem fnv1aStrFrom_eq {str : List UInt8} (text : 0 ∉ str) (hash len : Nat) :
    fnv1aStrFrom hash len str =
      (str.foldl (fun hash b => (hash ^^^ b.toNat) * 16777619 % 4294967296) hash,
        (len + str.length) % 65536) := by
  induction str generalizing hash len with
  | nil => rfl
  | cons b rest ih =>
    rw [List.mem_cons, not_or] at text
    rw [fnv1aStrFrom, if_neg (Ne.symm text.1), ih text.2, List.foldl_cons, List.length_cons,
      Nat.add_right_comm, Nat.add_assoc]

theorem fnv1aStr_eq {str : List UInt8} (text : 0 ∉ str) :
    fnv1aStr str = (fnv1a str, str.length % 65536) := by
  rw [fnv1aStr, fnv1aStrFrom_eq text, Nat.zero_add]
  rfl

/-- Up to the length of the first, two byte strings agree where it is a prefix of the second,
or goes on behind a copy of it and its terminator. -/
theorem strncmp_eq_zero {key str : List UInt8} (text : 0 ∉ str) :
    strncmp key.length key str = 0 ↔ key <+: str ∨ str ++ [0] <+: key := by
  induction key generalizing str with
  | nil => simp [strncmp]
  | cons a key ih =>
    cases str with
    | nil =>
      by_cases null : a = 0
      · simp [strncmp, null]
      · have positive : a.toNat ≠ 0 := fun zero => null (UInt8.toNat_inj.mp zero)
        simp [strncmp, null, positive, Ne.symm null]
    | cons b str =>
      rw [List.mem_cons, not_or] at text
      have nonzero : b ≠ 0 := Ne.symm text.1
      by_cases eq : a = b
      · subst eq
        simp [strncmp, nonzero, ih text.2]
      · have differ : a.toNat ≠ b.toNat := fun same => eq (UInt8.toNat_inj.mp same)
        have apart : (a.toNat : Int) - b.toNat ≠ 0 := by omega
        simp [strncmp, eq, Ne.symm eq, apart]

/-- The node is in the list that a lookup at `idx` goes over. -/
def sharesBucket (m : Memory) (idx x : Nat) : Prop :=
  if m.tbl.isNeedRemake idx then m.hashVal x &&& m.tbl.mask = idx else x ∈ m.tbl.nodes idx

instance (m : Memory) (idx x : Nat) : Decidable (sharesBucket m idx x) :=
  inferInstanceAs (Decidable (ite ..))

/-- Another key that `strncmp` bounded by its length takes for the string. -/
def takenFor (key str : List UInt8) : Prop :=
  key ≠ str ∧ (key <+: str ∨ str ++ [0] <+: key)

theorem Inv.mem_bucket {hash : List UInt8 → Nat} {shift k : Nat} {s : System} {x : Nat}
    (h : Inv hash shift s k) (min : 3 ≤ shift) (hashVal : Nat) :
    x ∈ (s.mem.tryRemake (hashVal &&& s.mem.tbl.mask)).tbl.nodes (hashVal &&& s.mem.tbl.mask) ↔
      x ∈ s.inserted ∧ sharesBucket s.mem (hashVal &&& s.mem.tbl.mask) x := by
  have least := h.placed.least
  rw [sharesBucket, h.hashVal_mask hashVal, h.hashVal_mask (s.mem.hashVal x)]
  by_cases made : s.mem.tbl.isMade (hashVal % 2 ^ k) = true
  · rw [if_neg (by simp [made]), Memory.tryRemake, ehHashtblTryRemake, if_neg (by simp [made])]
    exact ⟨fun mem => ⟨((h.placed.mem x _).mp mem).1, mem⟩, And.right⟩
  · have pending : s.mem.tbl.isMade (hashVal % 2 ^ k) = false := by simpa using made
    have away : hashVal % 2 ^ k ≠ home s.mem.tbl.isMade (hashVal % 2 ^ k) k := fun eq =>
      made (eq ▸ home_made (h.placed.made 0 (Nat.two_pow_pos _)))
    have after := h.placed.nodes_tryRemake (by omega) (Nat.mod_lt hashVal (Nat.two_pow_pos k))
      pending (hashVal % 2 ^ k)
    rw [if_neg away, s.mem.tbl.nodes_of_pending _ pending, List.append_nil] at after
    rw [if_pos (by simp [pending]), Memory.tryRemake, after, List.mem_reverse, List.mem_filter,
      h.placed.mem, decide_eq_true_iff, and_assoc]
    refine and_congr_right fun _ => ⟨And.right, fun here => ⟨?_, here⟩⟩
    rw [← here, home_mod (le_refl k)]

/-- The four lookups of a string agree exactly where no node in its bucket has a key that
`strncmp` takes for it. -/
theorem ehHashtbl_lookups_agree_iff {shift : Nat} {lf : LoadFactor} {alloc : Bool × Bool}
    {tbl : EhHashtbl} {node : Nat → EhHashtblNode} {cs : List Change} {s : System}
    (min : 3 ≤ shift) (max : shift ≤ 30)
    (created : ehHashtblCreate shift lf alloc = .ok (some tbl))
    (run : Changes fnv1a tbl node cs s) {str : List UInt8} (text : 0 ∉ str)
    (short : str.length ≤ 65535) :
    ((ehHashtblForEachWithStringSafe s.mem str).1 =
        (ehHashtblForEachWithKeySafe fnv1a s.mem str).1 ∧
      ((∀ x, x ∈ (ehHashtblForEachWithKeySafe fnv1a s.mem str).1 ↔
        x ∈ s.inserted ∧ (s.mem.node x).key = str) ∧
        (ehHashtblForEachWithKeySafe fnv1a s.mem str).1.Nodup) ∧
      (ehHashtblFindWithString fnv1a s.mem str).1 = (ehHashtblFind fnv1a s.mem str).1 ∧
      (ehHashtblFind fnv1a s.mem str).1.2 =
        (ehHashtblForEachWithKeySafe fnv1a s.mem str).1.head?) ↔
    ∀ x ∈ s.inserted, sharesBucket s.mem (fnv1a str &&& s.mem.tbl.mask) x →
      ¬takenFor (s.mem.node x).key str := by
  obtain ⟨k, inv, -⟩ := changes_inv min max created run
  have walk : (ehHashtblForEachWithStringSafe s.mem str).1 =
      ((s.mem.tryRemake (fnv1a str &&& s.mem.tbl.mask)).tbl.nodes
        (fnv1a str &&& s.mem.tbl.mask)).filter
          fun x => strncmp (s.mem.node x).key.length (s.mem.node x).key str = 0 := by
    simp only [ehHashtblForEachWithStringSafe, ehHashtblFindListHeadWithString,
      fnv1aStr_eq text]
    rfl
  have visited : ∀ x, x ∈ (ehHashtblForEachWithKeySafe fnv1a s.mem str).1 ↔
      x ∈ s.inserted ∧ (s.mem.node x).key = str := fun x => inv.visit_mem min
  constructor
  · rintro ⟨same, -⟩ x mem shares ⟨ne, alike⟩
    have inWalk : x ∈ (ehHashtblForEachWithStringSafe s.mem str).1 := by
      rw [walk, List.mem_filter, decide_eq_true_iff, strncmp_eq_zero text]
      exact ⟨(inv.mem_bucket min _).mpr ⟨mem, shares⟩, alike⟩
    exact ne ((visited x).mp (same ▸ inWalk)).2
  · intro clear
    refine ⟨?_, ⟨visited, ?_⟩, ?_, ?_⟩
    · rw [walk, ehHashtblForEachWithKeySafe_eq]
      refine List.filter_congr fun x mem => decide_eq_decide.mpr ?_
      obtain ⟨held, shares⟩ := (inv.mem_bucket min _).mp mem
      rw [strncmp_eq_zero text]
      constructor
      · intro alike
        by_contra ne
        exact clear x held shares ⟨ne, alike⟩
      · intro eq
        exact .inl (eq ▸ List.prefix_refl _)
    · rw [inv.visit_eq min]
      exact inv.placed.nodup_keyed
    · rw [ehHashtblFindWithString_eq (Nat.lt_succ_of_le short)]
    · rw [Inv.find_eq]
      cases (ehHashtblForEachWithKeySafe fnv1a s.mem str).1.head? <;> rfl

def usual : EhHashtbl := ⟨fun i => if i < 2 ^ 4 then some [] else none, 15, 12, 0⟩

theorem usual_created :
    ehHashtblCreate 4 (.finite false 3 (-2)) (true, true) = .ok (some usual) := rfl

def neighbours : System :=
  [.new [99] 4, .new [115] 4, .insert 0 true, .insert 1 true].foldl (step fnv1a)
    ⟨⟨usual, fun _ => ⟨false, 0, 0, []⟩⟩, [], [], 0⟩

theorem neighbours_run : Changes fnv1a usual (fun _ => ⟨false, 0, 0, []⟩)
    [.call (.new [99] 4), .call (.new [115] 4), .call (.insert 0 true), .call (.insert 1 true)]
    neighbours := by
  have room : (15 : Nat) ≠ 2147483647 := by decide
  refine .cons ⟨⟨(by decide : 1 < 65536), fun _ insert => by cases insert⟩, rfl⟩
    (.cons ⟨⟨(by decide : 1 < 65536), fun _ insert => by cases insert⟩, rfl⟩
    (.cons ⟨⟨?_, fun _ _ => room⟩, rfl⟩ (.single ⟨⟨?_, fun _ _ => room⟩, rfl⟩)))
  · exact (by decide : 0 ∈ [1, 0])
  · exact (by decide : 1 ∈ [1, 0])

theorem ehHashtbl_lookups_agree_iff_c :
    neighbours.mem.tbl.nodes 2 = [1, 0] ∧
    (ehHashtblForEachWithStringSafe neighbours.mem [99]).1 = [0] ∧
    (ehHashtblForEachWithStringSafe neighbours.mem [99]).1 =
      (ehHashtblForEachWithKeySafe fnv1a neighbours.mem [99]).1 := by
  have agree := ehHashtbl_lookups_agree_iff (by decide) (by decide) usual_created neighbours_run
    (by decide : (0 : UInt8) ∉ [99]) (by decide)
  refine ⟨by decide +kernel, by decide +kernel, (agree.mpr fun x mem _ => ?_).1⟩
  rcases List.mem_pair.mp mem with rfl | rfl
  · exact fun taken => absurd taken.2 (by decide)
  · exact fun taken => taken.1 rfl

def emptyKey : System :=
  let s : System := ⟨⟨usual, fun _ => ⟨false, 0, 0, []⟩⟩, [], [], 0⟩
  step fnv1a (step fnv1a s (.new [] 4)) (.insert 0 true)

theorem emptyKey_run : Changes fnv1a usual (fun _ => ⟨false, 0, 0, []⟩)
    [.call (.new [] 4), .call (.insert 0 true)] emptyKey :=
  .cons ⟨⟨(by decide : 0 < 65536), fun _ => nofun⟩, rfl⟩
    (.single ⟨⟨List.mem_cons_self .., fun _ _ => (by decide : (15 : Nat) ≠ 2147483647)⟩, rfl⟩)

/-- The walk over the string `b` visits the node with the empty key. -/
theorem ehHashtbl_lookups_differ :
    ehHashtblCreate 4 (.finite false 3 (-2)) (true, true) = .ok (some usual) ∧
    Changes fnv1a usual (fun _ => ⟨false, 0, 0, []⟩)
      [.call (.new [] 4), .call (.insert 0 true)] emptyKey ∧
    (0 : UInt8) ∉ [98] ∧ [(98 : UInt8)].length ≤ 65535 ∧
    (ehHashtblForEachWithStringSafe emptyKey.mem [98]).1 = [0] ∧
    (ehHashtblForEachWithKeySafe fnv1a emptyKey.mem [98]).1 = [] :=
  ⟨usual_created, emptyKey_run, by decide, by decide, rfl, rfl⟩

end EventHub.Hashtbl
