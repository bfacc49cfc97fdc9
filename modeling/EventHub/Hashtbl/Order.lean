import EventHub.Hashtbl.Rekey

/-! The order in which the nodes of one key are visited. Nodes that move to another bucket
are put in front one by one, so they arrive in the reverse order. -/

namespace EventHub.Hashtbl
open Library Library.Doubling

section Remake
variable {hashVal : Nat → Nat} {t : EhHashtbl} {shift k old : Nat} {stored l : List Nat}

theorem foldl_remakeNode_nodes (hashVal : Nat → Nat) (old : Nat)
    (nodup : (t.nodes old).Nodup) (distinct : l.Nodup)
    (own : ∀ x ∈ l, ∀ i, i ≠ old → x ∉ t.nodes i) (i : Nat) :
    (l.foldl (remakeNode hashVal old) t).nodes i =
      if i = old then
        (t.nodes old).filter fun x => ¬(x ∈ l ∧ hashVal x &&& t.mask ≠ old)
      else (l.filter fun x => hashVal x &&& t.mask = i).reverse ++ t.nodes i := by
  induction l generalizing t with
  | nil =>
    by_cases here : i = old <;> simp [here]
  | cons x l ih =>
    obtain ⟨fresh, distinct⟩ := List.nodup_cons.mp distinct
    have rest : ∀ y ∈ l, ∀ i, i ≠ old → y ∉ t.nodes i := fun y mem => own y (by simp [mem])
    rw [List.foldl_cons]
    by_cases stays : hashVal x &&& t.mask = old
    · rw [show remakeNode hashVal old t x = t from if_neg (not_not.mpr stays),
        ih nodup distinct rest]
      refine if_ctx_congr Iff.rfl (fun _ => List.filter_congr fun y _ => ?_) fun here => ?_
      · grind
      · rw [List.filter_cons_of_neg (by simp [stays]; exact fun eq => here eq.symm)]
    · let j := hashVal x &&& t.mask
      let t₁ := ((t.listDel x).initIfNeeded j).listAdd x j
      have moved : remakeNode hashVal old t x = t₁ := if_pos stays
      have mask : t₁.mask = t.mask := EhHashtbl.mask_initIfNeeded ..
      have nodes₁ : ∀ i, t₁.nodes i = if i = old then (t.nodes old).filter (· != x)
          else if i = j then x :: t.nodes j else t.nodes i := by
        intro i
        have erased : ∀ i, i ≠ old → (t.nodes i).erase x = t.nodes i := fun i ne =>
          List.erase_of_not_mem (own x (by simp) i ne)
        by_cases here : i = old
        · have ne : old ≠ j := fun eq => stays eq.symm
          simp [t₁, here, ne, nodup.erase_eq_filter]
        · by_cases new : i = j
          · simp [t₁, new, erased j stays, show j ≠ old from stays]
          · simp [t₁, here, new, erased i here]
      have nodup₁ : (t₁.nodes old).Nodup := by
        rw [nodes₁, if_pos rfl]
        exact nodup.filter _
      have own₁ : ∀ y ∈ l, ∀ i, i ≠ old → y ∉ t₁.nodes i := by
        intro y mem i ne
        rw [nodes₁, if_neg ne]
        split
        · rw [List.mem_cons, not_or]
          exact ⟨fun eq => fresh (eq ▸ mem), rest y mem j stays⟩
        · exact rest y mem i ne
      rw [moved, ih nodup₁ distinct own₁, mask]
      refine if_ctx_congr Iff.rfl (fun here => ?_) fun here => ?_
      · rw [nodes₁, if_pos rfl, List.filter_filter]
        refine List.filter_congr fun y _ => ?_
        by_cases eq : y = x
        · simp [eq, stays]
        · simp [eq]
      · rw [nodes₁, if_neg here]
        by_cases new : i = j
        · rw [if_pos new, List.filter_cons_of_pos (by simp [new, j]), List.reverse_cons,
            List.append_assoc, new]
          rfl
        · rw [if_neg new, List.filter_cons_of_neg (by simpa using fun eq => new eq.symm)]

theorem Placed.nodes_tryRemake (h : Placed shift hashVal stored t k) (hk : 1 ≤ k) {idx : Nat}
    (lt : idx < 2 ^ k) (pending : t.isMade idx = false) (i : Nat) :
    (ehHashtblTryRemake hashVal t idx).nodes i =
      if i = home t.isMade idx k then
        (t.nodes i).filter fun x => hashVal x % 2 ^ k = i
      else
        ((t.nodes (home t.isMade idx k)).filter fun x => hashVal x % 2 ^ k = i).reverse ++
          t.nodes i := by
  have old := h.old_eq hk lt pending
  have target : ∀ x, hashVal x &&& t.mask = hashVal x % 2 ^ k := fun x => by
    rw [h.mask, Nat.and_two_pow_sub_one_eq_mod]
  have own : ∀ x ∈ t.nodes (home t.isMade idx k), ∀ i, i ≠ home t.isMade idx k →
      x ∉ t.nodes i := fun x mem i ne mem' =>
    ne (((h.mem x i).mp mem').2.symm.trans ((h.mem x _).mp mem).2)
  rw [ehHashtblTryRemake, if_pos (by simp [pending]), ← old]
  dsimp only
  rw [EhHashtbl.nodes_initIfNeeded,
    foldl_remakeNode_nodes hashVal _ (h.nodup _) (h.nodup _) own i]
  simp only [target]
  refine if_ctx_congr Iff.rfl (fun here => ?_) fun _ => rfl
  rw [← here]
  refine List.filter_congr fun x mem => ?_
  simp [mem]

end Remake

/-- The nodes that `P` picks among those of the hash `h`, in the order in which a lookup that
remakes their bucket first comes by them. -/
def keyed (t : EhHashtbl) (k h : Nat) (P : Nat → Bool) : List Nat :=
  let picked := (t.nodes (home t.isMade h k)).filter P
  if t.isMade (h % 2 ^ k) then picked else picked.reverse

section Keyed
variable {hashVal : Nat → Nat} {t t' : EhHashtbl} {shift k h x : Nat} {stored : List Nat}
  {P : Nat → Bool}

theorem mem_keyed : x ∈ keyed t k h P ↔ x ∈ t.nodes (home t.isMade h k) ∧ P x := by
  unfold keyed
  dsimp only
  split
  · exact List.mem_filter
  · rw [List.mem_reverse, List.mem_filter]

theorem Placed.mem_keyed (place : Placed shift hashVal stored t k)
    (same : ∀ x ∈ stored, P x → hashVal x = h) :
    x ∈ keyed t k h P ↔ x ∈ stored ∧ P x := by
  rw [Hashtbl.mem_keyed, place.mem, and_assoc]
  refine and_congr_right fun mem => ⟨fun both => both.2, fun pick => ⟨?_, pick⟩⟩
  rw [same x mem pick]

theorem Placed.nodup_keyed (place : Placed shift hashVal stored t k) :
    (keyed t k h P).Nodup := by
  unfold keyed
  dsimp only
  split
  · exact (place.nodup _).filter _
  · exact List.nodup_reverse.mpr ((place.nodup _).filter _)

theorem keyed_congr (made : t'.isMade = t.isMade)
    (nodes : ∀ i, (t'.nodes i).filter P = (t.nodes i).filter P) :
    keyed t' k h P = keyed t k h P := by
  simp only [keyed, made, nodes]

theorem Placed.picked_nil (place : Placed shift hashVal stored t k)
    (same : ∀ x ∈ stored, P x → hashVal x = h) {i : Nat} (ne : i ≠ home t.isMade h k) :
    (t.nodes i).filter P = [] := by
  refine List.filter_eq_nil_iff.mpr fun x mem pick => ?_
  obtain ⟨held, here⟩ := (place.mem x i).mp mem
  exact ne (by rw [← here, same x held pick])

theorem Placed.keyed_tryRemake (place : Placed shift hashVal stored t k) (hk : 1 ≤ k)
    {idx : Nat} (lt : idx < 2 ^ k) (same : ∀ x ∈ stored, P x → hashVal x = h) :
    keyed (ehHashtblTryRemake hashVal t idx) k h P = keyed t k h P := by
  by_cases made : t.isMade idx = true
  · rw [show ehHashtblTryRemake hashVal t idx = t from if_neg (by simp [made])]
  have pending : t.isMade idx = false := by simpa using made
  obtain ⟨place', -⟩ := place.tryRemake hk lt
  cases order : keyed t k h P with
  | nil =>
    refine List.eq_nil_iff_forall_not_mem.mpr fun x mem => ?_
    have := (place.mem_keyed same).mpr ((place'.mem_keyed same).mp mem)
    rw [order] at this
    cases this
  | cons y ys =>
    rw [← order]
    -- a node of the key shows where the others go
    obtain ⟨held, pick⟩ := (place.mem_keyed same).mp (order ▸ List.mem_cons_self ..)
    have here := same y held pick
    have before := (place.mem y (home t.isMade h k)).mpr ⟨held, by rw [here]⟩
    have nodes := place.nodes_tryRemake hk lt pending
    have zero : t.isMade 0 = true := place.made 0 (Nat.two_pow_pos _)
    have zero' := place'.made 0 (Nat.two_pow_pos _)
    have moved : ∀ {i}, y ∈ (ehHashtblTryRemake hashVal t idx).nodes i →
        home (ehHashtblTryRemake hashVal t idx).isMade h k = i := fun mem => by
      rw [← here]
      exact ((place'.mem y _).mp mem).2
    -- while the home stays the same, whether the bucket of the whole hash is made does too
    have stay : home (ehHashtblTryRemake hashVal t idx).isMade h k = home t.isMade h k →
        ((ehHashtblTryRemake hashVal t idx).nodes (home t.isMade h k)).filter P =
          (t.nodes (home t.isMade h k)).filter P →
        keyed (ehHashtblTryRemake hashVal t idx) k h P = keyed t k h P := fun home nodes => by
      simp only [keyed, home, nodes, made_iff_home zero, made_iff_home zero']
    by_cases away : home t.isMade h k = home t.isMade idx k
    · by_cases stays : h % 2 ^ k = home t.isMade h k
      · have after := nodes (home t.isMade h k)
        rw [if_pos away] at after
        refine stay (moved ?_) ?_
        · rw [after, List.mem_filter]
          exact ⟨before, by simp [here, stays]⟩
        · rw [after, List.filter_filter]
          refine List.filter_congr fun x mem => ?_
          by_cases pick : P x = true
          · simp [pick, same x ((place.mem x _).mp mem).1 pick, stays]
          · simp [pick]
      · have after := nodes (h % 2 ^ k)
        rw [if_neg fun eq => stays (eq.trans away.symm), ← away] at after
        have home' := moved (i := h % 2 ^ k) (by
          rw [after, List.mem_append, List.mem_reverse, List.mem_filter]
          exact .inl ⟨before, by simp [here]⟩)
        have made' := (made_iff_home zero').mpr home'
        have pending' : ¬t.isMade (h % 2 ^ k) = true := fun made =>
          stays (home_of_made made).symm
        simp only [keyed, home', if_pos made', if_neg pending', after, List.filter_append,
          place.picked_nil same stays, List.append_nil, List.filter_reverse, List.filter_filter]
        refine congrArg _ (List.filter_congr fun x mem => ?_)
        by_cases pick : P x = true
        · simp [pick, same x ((place.mem x _).mp mem).1 pick]
        · simp [pick]
    · have after := nodes (home t.isMade h k)
      rw [if_neg away] at after
      refine stay (moved ?_) ?_
      · rw [after]
        exact List.mem_append_right _ before
      · have none : ((t.nodes (home t.isMade idx k)).filter P) = [] :=
          place.picked_nil same fun eq => away eq.symm
        rw [after, List.filter_append, List.filter_reverse, List.filter_filter]
        simp only [Bool.and_comm (P _)]
        rw [← List.filter_filter, none]
        rfl

/-- Doubling the table turns the order around where the nodes have to leave the bucket that
has been made for them. -/
theorem Placed.keyed_resize (place : Placed shift hashVal stored t k) (small : k ≤ 30) :
    keyed (ehHashtblResize t true).2 (k + 1) h P =
      if t.isMade (h % 2 ^ k) = true ∧ h % 2 ^ (k + 1) ≠ h % 2 ^ k then
        (keyed t k h P).reverse
      else keyed t k h P := by
  have table := place.table_resize small
  have made : (ehHashtblResize t true).2.isMade = t.isMade := by
    funext i
    simp [EhHashtbl.isMade, EhHashtbl.isNeedRemake, table]
  have nodes : ∀ i, (ehHashtblResize t true).2.nodes i = t.nodes i := fun i => by
    simp [EhHashtbl.nodes, table]
  simp only [keyed, made, nodes, home_double place.bound]
  by_cases low : h % 2 ^ (k + 1) = h % 2 ^ k
  · simp [low]
  · have high : t.isMade (h % 2 ^ (k + 1)) = false := by
      refine place.bound _ ?_
      by_contra less
      refine low ?_
      rw [← Nat.mod_mod_of_dvd h (Nat.pow_dvd_pow 2 (Nat.le_succ k)),
        Nat.mod_eq_of_lt (Nat.lt_of_not_le less)]
    by_cases here : t.isMade (h % 2 ^ k) = true <;> simp [low, high, here]

end Keyed

namespace Inv
variable {hash : List UInt8 → Nat} {shift k : Nat} {s : System} {x : Nat} {key : List UInt8}

def holds (m : Memory) (key : List UInt8) (x : Nat) : Bool := (m.node x).key = key

theorem holds_hash (h : Inv hash shift s k) :
    ∀ x ∈ s.inserted, holds s.mem key x → s.mem.hashVal x = hash key := fun x mem pick => by
  rw [h.hashed x (h.held x mem), of_decide_eq_true pick]

theorem visit_eq (h : Inv hash shift s k) (min : 3 ≤ shift) :
    (ehHashtblForEachWithKeySafe hash s.mem key).1 =
      keyed s.mem.tbl k (hash key) (holds s.mem key) := by
  have least := h.placed.least
  obtain ⟨-, made⟩ := h.tryRemake min (hash key)
  rw [ehHashtblForEachWithKeySafe_eq, ← h.placed.keyed_tryRemake (by omega)
    (Nat.mod_lt (hash key) (Nat.two_pow_pos k)) h.holds_hash]
  rw [h.hashVal_mask] at *
  have made : (ehHashtblTryRemake s.mem.hashVal s.mem.tbl (hash key % 2 ^ k)).isMade
      (hash key % 2 ^ k) = true := made
  rw [keyed, home_of_made made, if_pos made]
  rfl

theorem find_eq (hash : List UInt8 → Nat) (m : Memory) (key : List UInt8) :
    (ehHashtblFind hash m key).1 =
      match (ehHashtblForEachWithKeySafe hash m key).1.head? with
      | some x => (retOk, some x)
      | none => (retNotExists, none) := by
  rw [ehHashtblForEachWithKeySafe_eq, List.head?_filter]
  exact findIn_result ..

theorem holds_setLinked (m : Memory) (tbl : EhHashtbl) (x : Nat) (linked : Bool)
    (key : List UInt8) : holds ⟨tbl, (m.setLinked x linked).node⟩ key = holds m key := by
  funext y
  exact decide_eq_decide.mpr (by rw [Memory.setLinked_key])

theorem keyed_listDel (h : Inv hash shift s k) (other : (s.mem.node x).key ≠ key)
    (count : Nat) : keyed { s.mem.tbl.listDel x with count } k (hash key) (holds s.mem key) =
      keyed s.mem.tbl k (hash key) (holds s.mem key) := by
  refine keyed_congr (funext fun i => EhHashtbl.isMade_listDel ..) fun i => ?_
  rw [show EhHashtbl.nodes { s.mem.tbl.listDel x with count } i = (s.mem.tbl.listDel x).nodes i
    from rfl, EhHashtbl.nodes_listDel, (h.placed.nodup i).erase_eq_filter, List.filter_filter]
  refine List.filter_congr fun y _ => ?_
  by_cases eq : y = x
  · simp [eq, holds, other]
  · simp [eq]

theorem keyed_insert (h : Inv hash shift s k) (min : 3 ≤ shift)
    (other : (s.mem.node x).key ≠ key) (count : Nat) :
    keyed { (ehHashtblTryRemake s.mem.hashVal s.mem.tbl (s.mem.hashVal x % 2 ^ k)).listAdd x
        (s.mem.hashVal x % 2 ^ k) with count } k (hash key) (holds s.mem key) =
      keyed s.mem.tbl k (hash key) (holds s.mem key) := by
  have least := h.placed.least
  obtain ⟨-, made⟩ := h.tryRemake min (s.mem.hashVal x)
  rw [h.hashVal_mask] at made
  have made : (ehHashtblTryRemake s.mem.hashVal s.mem.tbl (s.mem.hashVal x % 2 ^ k)).isMade
      (s.mem.hashVal x % 2 ^ k) = true := made
  rw [← h.placed.keyed_tryRemake (by omega)
    (Nat.mod_lt (s.mem.hashVal x) (Nat.two_pow_pos k)) h.holds_hash]
  refine keyed_congr (funext fun i => ?_) fun i => ?_
  · refine (EhHashtbl.isMade_listAdd ..).trans ?_
    by_cases here : i = s.mem.hashVal x % 2 ^ k
    · simp [here, made]
    · simp [here]
  · refine (congrArg _ (EhHashtbl.nodes_listAdd ..)).trans ?_
    split
    · next here =>
      rw [List.filter_cons_of_neg (by simp [holds, other]), here]
    · rfl

theorem level_unique {m k k' : Nat} (mask : m = 2 ^ k - 1) (mask' : m = 2 ^ k' - 1) :
    k = k' := by
  refine Nat.pow_right_injective (le_refl 2) ?_
  have := Nat.two_pow_pos k
  have := Nat.two_pow_pos k'
  dsimp only
  omega

end Inv

def Op.Other (s : System) (key : List UInt8) : Op → Prop
  | insert x _ | remove x | delete x => (s.mem.node x).key ≠ key
  | find key' | findWithString key' => key' ≠ key
  | new .. | renew .. => False

/-- An insertion doubles the table, and the nodes of `key` leave the bucket that has been
made for them. -/
structure Leaves (hash : List UInt8 → Nat) (s : System) (op : Op) (key : List UInt8) :
    Prop where
  inserts : ∃ x, op = .insert x true ∧ (s.mem.node x).linked = false
  doubles : s.mem.tbl.threshold ≤ (s.mem.tbl.count + 1) % 4294967296 ∧
    s.mem.tbl.mask ≠ 4294967295
  made : s.mem.tbl.isNeedRemake (hash key &&& s.mem.tbl.mask) = false
  leave : hash key &&& (2 * s.mem.tbl.mask + 1) ≠ hash key &&& s.mem.tbl.mask

namespace Inv
variable {hash : List UInt8 → Nat} {shift k : Nat} {s : System} {x : Nat} {key : List UInt8}

theorem leaves_iff (h : Inv hash shift s k)
    (unlinked : (s.mem.node x).linked = false)
    (doubles : s.mem.tbl.threshold ≤ (s.mem.tbl.count + 1) % 4294967296 ∧
      s.mem.tbl.mask ≠ 4294967295) :
    Leaves hash s (.insert x true) key ↔ s.mem.tbl.isMade (hash key % 2 ^ k) = true ∧
      hash key % 2 ^ (k + 1) ≠ hash key % 2 ^ k := by
  have low := h.hashVal_mask (hash key)
  have high : hash key &&& (2 * s.mem.tbl.mask + 1) = hash key % 2 ^ (k + 1) := by
    rw [← Nat.and_two_pow_sub_one_eq_mod, h.placed.mask]
    congr 1
    have := Nat.two_pow_pos k
    rw [Nat.pow_succ]
    omega
  constructor
  · rintro ⟨-, -, made, leave⟩
    rw [low] at made leave
    rw [high] at leave
    exact ⟨by simpa using made, leave⟩
  · rintro ⟨made, leave⟩
    exact ⟨⟨x, rfl, unlinked⟩, doubles, by rw [low]; simpa using made, by rw [low, high]; exact leave⟩

theorem insert_keyed (h : Inv hash shift s k) (min : 3 ≤ shift) (small : k ≤ 31)
    (live : x ∈ s.live) {alloc : Bool} (room : alloc = true → k ≤ 30)
    (other : (s.mem.node x).key ≠ key) :
    let t := step hash s (.insert x alloc)
    (Leaves hash s (.insert x alloc) key →
      (ehHashtblForEachWithKeySafe hash t.mem key).1 =
        (ehHashtblForEachWithKeySafe hash s.mem key).1.reverse) ∧
    (¬Leaves hash s (.insert x alloc) key →
      (ehHashtblForEachWithKeySafe hash t.mem key).1 =
        (ehHashtblForEachWithKeySafe hash s.mem key).1) := by
  have unchanged : ∀ ret, ehHashtblInsert s.mem x alloc = (ret, s.mem) → ret ≠ retOk →
      step hash s (.insert x alloc) = s := by
    intro ret run failed
    simp [step, run, failed]
  have own : Leaves hash s (.insert x alloc) key →
      alloc = true ∧ (s.mem.node x).linked = false := by
    rintro ⟨⟨y, eq, unlinked⟩, -⟩
    cases eq
    exact ⟨rfl, unlinked⟩
  dsimp only
  by_cases linked : (s.mem.node x).linked = true
  · rw [unchanged retExists (if_pos linked) (by decide)]
    exact ⟨fun leaves => absurd linked (by simp [(own leaves).2]), fun _ => rfl⟩
  have inserted : ∀ {t : EhHashtbl} {j : Nat},
      Inv hash shift { s with mem := { s.mem with tbl := t } } j →
      (if (s.mem.tbl.count + 1) % 4294967296 ≥ s.mem.tbl.threshold ∧
        s.mem.tbl.mask ≠ 4294967295 then ehHashtblResize s.mem.tbl alloc
        else (retOk, s.mem.tbl)) = (retOk, t) →
      (ehHashtblForEachWithKeySafe hash (step hash s (.insert x alloc)).mem key).1 =
        keyed t j (hash key) (holds s.mem key) := fun {t j} inv enlarge => by
    obtain ⟨k', inv', -⟩ := h.insert min small live room
    have remade := (inv.tryRemake min (s.mem.hashVal x)).1.placed.mask
    rw [inv.hashVal_mask] at remade
    have mask := inv'.placed.mask
    rw [inv'.visit_eq min]
    rw [inv.insert_run linked enlarge] at mask ⊢
    obtain rfl := level_unique remade mask
    rw [holds_setLinked]
    exact inv.keyed_insert min other _
  rw [h.visit_eq min]
  by_cases doubles : (s.mem.tbl.count + 1) % 4294967296 ≥ s.mem.tbl.threshold ∧
      s.mem.tbl.mask ≠ 4294967295
  · cases alloc with
    | false =>
      rw [unchanged retMallocError (by
        rw [ehHashtblInsert, if_neg linked, if_pos doubles]; rfl) (by decide), h.visit_eq min]
      exact ⟨fun leaves => absurd (own leaves).1 (by decide), fun _ => rfl⟩
    | true =>
      have enlarge : (if (s.mem.tbl.count + 1) % 4294967296 ≥ s.mem.tbl.threshold ∧
          s.mem.tbl.mask ≠ 4294967295 then ehHashtblResize s.mem.tbl true
          else (retOk, s.mem.tbl)) = (retOk, (ehHashtblResize s.mem.tbl true).2) :=
        if_pos doubles
      obtain ⟨j, inv, -⟩ := h.enlarged small room enlarge
      obtain rfl := level_unique (h.placed.resize (room rfl)).mask inv.placed.mask
      have after := (inserted inv enlarge).trans (h.placed.keyed_resize (room rfl))
      have leaves_iff : Leaves hash s (.insert x true) key ↔ _ :=
        h.leaves_iff (by simpa using linked) doubles
      exact ⟨fun leaves => after.trans (if_pos (leaves_iff.mp leaves)),
        fun stays => after.trans (if_neg fun both => stays (leaves_iff.mpr both))⟩
  · exact ⟨fun leaves => absurd leaves.doubles doubles,
      fun _ => inserted h (if_neg doubles)⟩

theorem step_keyed (h : Inv hash shift s k) (min : 3 ≤ shift) (small : k ≤ 31) {op : Op}
    (legal : op.Legal s) (room : ∀ x, op = .insert x true → k ≤ 30)
    (other : op.Other s key) :
    (Leaves hash s op key → (ehHashtblForEachWithKeySafe hash (step hash s op).mem key).1 =
      (ehHashtblForEachWithKeySafe hash s.mem key).1.reverse) ∧
    (¬Leaves hash s op key → (ehHashtblForEachWithKeySafe hash (step hash s op).mem key).1 =
      (ehHashtblForEachWithKeySafe hash s.mem key).1) := by
  have least := h.placed.least
  have never : (∀ x, op ≠ .insert x true) → ¬Leaves hash s op key := by
    rintro ne ⟨⟨x, eq, -⟩, -⟩
    exact ne x eq
  have remade : ∀ hashVal : Nat, (ehHashtblForEachWithKeySafe hash
      (s.mem.tryRemake (hashVal &&& s.mem.tbl.mask)) key).1 =
      (ehHashtblForEachWithKeySafe hash s.mem key).1 := fun hashVal => by
    rw [(h.tryRemake min hashVal).1.visit_eq min, h.visit_eq min, h.hashVal_mask]
    exact h.placed.keyed_tryRemake (by omega) (Nat.mod_lt _ (Nat.two_pow_pos k)) h.holds_hash
  cases op with
  | new => exact other.elim
  | renew => exact other.elim
  | insert x alloc => exact h.insert_keyed min small legal (fun eq => room x (by rw [eq])) other
  | find key' =>
    refine ⟨fun leaves => absurd leaves (never fun x eq => by cases eq), fun _ => ?_⟩
    rw [step, ehHashtblFind, findIn_mem]
    exact remade _
  | findWithString str =>
    refine ⟨fun leaves => absurd leaves (never fun x eq => by cases eq), fun _ => ?_⟩
    rw [step, ehHashtblFindWithString, findIn_mem]
    exact remade _
  | remove x =>
    refine ⟨fun leaves => absurd leaves (never fun x eq => by cases eq), fun _ => ?_⟩
    rw [(h.remove small legal).visit_eq min, h.visit_eq min]
    by_cases linked : (s.mem.node x).linked
    · simp only [step, ehHashtblRemove, if_pos linked]
      rw [holds_setLinked]
      exact h.keyed_listDel other _
    · simp only [step, ehHashtblRemove, if_neg linked]
  | delete x =>
    refine ⟨fun leaves => absurd leaves (never fun x eq => by cases eq), fun _ => ?_⟩
    rw [(h.delete small legal).visit_eq min, h.visit_eq min]
    by_cases linked : (s.mem.node x).linked
    · simp only [step, ehHashtblNodeDelete, if_pos linked]
      exact h.keyed_listDel other _
    · simp only [step, ehHashtblNodeDelete, if_neg linked]

theorem length_visit (h : Inv hash shift s k) (min : 3 ≤ shift) :
    (ehHashtblForEachWithKeySafe hash s.mem key).1.length =
      (s.inserted.filter fun x => (s.mem.node x).key = key).length := by
  refine List.Perm.length_eq ((List.perm_ext_iff_of_nodup ?_ (h.nodup.filter _)).mpr fun x => ?_)
  · rw [h.visit_eq min]
    exact h.placed.nodup_keyed
  · rw [h.visit_mem min, List.mem_filter, decide_eq_true_iff]

end Inv

theorem reverse_ne {l : List Nat} (nodup : l.Nodup) (several : 2 ≤ l.length) :
    l.reverse ≠ l := by
  cases l with
  | nil => simp at several
  | cons a l =>
    intro same
    have ends : (a :: l).getLast? = some a := by
      rw [← List.head?_reverse, same]
      rfl
    cases l with
    | nil => simp at several
    | cons b l =>
      rw [List.getLast?_cons_cons] at ends
      exact (List.nodup_cons.mp nodup).1 (List.mem_of_getLast? ends)

theorem reverse_of_few {l : List Nat} (few : l.length < 2) : l.reverse = l := by
  cases l with
  | nil => rfl
  | cons a l =>
    cases l with
    | nil => rfl
    | cons b l =>
      simp only [List.length_cons] at few
      omega

/-- Which node of a key is found, and the order of all of them, survives the calls for other
keys, except where two or more of them leave their bucket as the table doubles. -/
theorem ehHashtbl_order_kept_iff {hash : List UInt8 → Nat} {shift : Nat} {lf : LoadFactor}
    {alloc : Bool × Bool} {tbl : EhHashtbl} {node : Nat → EhHashtblNode} {cs : List Change}
    {s : System} (min : 3 ≤ shift) (max : shift ≤ 30)
    (created : ehHashtblCreate shift lf alloc = .ok (some tbl))
    (run : Changes hash tbl node cs s) {op : Op} {key : List UInt8}
    (legal : (Change.call op).Legal s) (other : op.Other s key) :
    ((ehHashtblFind hash (step hash s op).mem key).1 = (ehHashtblFind hash s.mem key).1 ∧
      (ehHashtblForEachWithKeySafe hash (step hash s op).mem key).1 =
        (ehHashtblForEachWithKeySafe hash s.mem key).1) ↔
    ¬(Leaves hash s op key ∧
      2 ≤ (s.inserted.filter fun x => (s.mem.node x).key = key).length) := by
  obtain ⟨k, inv, small⟩ := changes_inv min max created run
  have room : ∀ x, op = .insert x true → k ≤ 30 := fun x eq => by
    have room := legal.2 x eq
    rw [inv.placed.mask] at room
    by_contra full
    obtain rfl : k = 31 := by omega
    exact room rfl
  obtain ⟨turned, kept⟩ := inv.step_keyed min small legal.1 room other
  have nodup : (ehHashtblForEachWithKeySafe hash s.mem key).1.Nodup := by
    rw [inv.visit_eq min]
    exact inv.placed.nodup_keyed
  rw [← inv.length_visit min]
  constructor
  · rintro ⟨-, same⟩ ⟨leaves, several⟩
    exact reverse_ne nodup several ((turned leaves).symm.trans same)
  · intro stays
    have same : (ehHashtblForEachWithKeySafe hash (step hash s op).mem key).1 =
        (ehHashtblForEachWithKeySafe hash s.mem key).1 := by
      by_cases leaves : Leaves hash s op key
      · rw [turned leaves]
        have few : (ehHashtblForEachWithKeySafe hash s.mem key).1.length < 2 :=
          Nat.lt_of_not_le fun several => stays ⟨leaves, several⟩
        exact reverse_of_few few
      · exact kept leaves
    exact ⟨by rw [Inv.find_eq, Inv.find_eq, same], same⟩

def narrow : EhHashtbl := ⟨fun i => if i < 2 ^ 4 then some [] else none, 15, 3, 0⟩

theorem narrow_created :
    ehHashtblCreate 4 (.finite false 3 (-4)) (true, true) = .ok (some narrow) := rfl

/-- Two nodes with the key `c` are in the table, one with the key `a` is not yet. -/
def twoSame : List Op :=
  [.new [99] 4, .insert 0 true, .new [99] 4, .insert 1 true, .new [97] 4]

def twoSameEnd : System :=
  twoSame.foldl (step fnv1a) ⟨⟨narrow, fun _ => ⟨false, 0, 0, []⟩⟩, [], [], 0⟩

theorem twoSame_run :
    Changes fnv1a narrow (fun _ => ⟨false, 0, 0, []⟩) (twoSame.map .call) twoSameEnd := by
  have short : ∀ b : UInt8, [b].length < 65536 := fun b => (by decide : 1 < 65536)
  have wide : (15 : Nat) ≠ 2147483647 := by decide
  refine .cons ⟨⟨short _, fun _ => nofun⟩, rfl⟩ (.cons ⟨⟨?_, fun _ _ => wide⟩, rfl⟩
    (.cons ⟨⟨short _, fun _ => nofun⟩, rfl⟩ (.cons ⟨⟨?_, fun _ _ => wide⟩, rfl⟩
      (.single ⟨⟨short _, fun _ => nofun⟩, rfl⟩))))
  · exact List.mem_cons_self ..
  · exact List.mem_cons_self ..

theorem ehHashtbl_order_kept_iff_find :
    (ehHashtblFind fnv1a (step fnv1a twoSameEnd (.find [97])).mem [99]).1 =
      (ehHashtblFind fnv1a twoSameEnd.mem [99]).1 ∧
    (ehHashtblForEachWithKeySafe fnv1a (step fnv1a twoSameEnd (.find [97])).mem [99]).1 =
      (ehHashtblForEachWithKeySafe fnv1a twoSameEnd.mem [99]).1 :=
  (ehHashtbl_order_kept_iff (by decide) (by decide) narrow_created twoSame_run
    (show (Change.call (.find [97])).Legal twoSameEnd from ⟨True.intro, fun _ => nofun⟩)
    (by decide : ([97] : List UInt8) ≠ [99])).mpr fun turns => by
      obtain ⟨x, eq, -⟩ := turns.1.inserts
      cases eq

/-- The node that is found changes with the insertion of another key. -/
theorem ehHashtbl_order_turned :
    ehHashtblCreate 4 (.finite false 3 (-4)) (true, true) = .ok (some narrow) ∧
    Changes fnv1a narrow (fun _ => ⟨false, 0, 0, []⟩) (twoSame.map .call) twoSameEnd ∧
    (Change.call (.insert 2 true)).Legal twoSameEnd ∧
    Op.Other twoSameEnd [99] (.insert 2 true) ∧
    (ehHashtblFind fnv1a twoSameEnd.mem [99]).1 = (retOk, some 1) ∧
    (ehHashtblFind fnv1a (step fnv1a twoSameEnd (.insert 2 true)).mem [99]).1 =
      (retOk, some 0) := by
  have legal : (Change.call (.insert 2 true)).Legal twoSameEnd :=
    ⟨List.mem_cons_self .., fun _ _ => (by decide : (15 : Nat) ≠ 2147483647)⟩
  have other : Op.Other twoSameEnd [99] (.insert 2 true) :=
    (by decide : ([97] : List UInt8) ≠ [99])
  obtain ⟨k, inv, small⟩ := changes_inv (by decide) (by decide) narrow_created twoSame_run
  obtain rfl : k = 4 := Inv.level_unique inv.placed.mask rfl
  have before : (ehHashtblForEachWithKeySafe fnv1a twoSameEnd.mem [99]).1 = [1, 0] := rfl
  have leaves : Leaves fnv1a twoSameEnd (.insert 2 true) [99] :=
    ⟨⟨2, rfl, rfl⟩, by decide, rfl, by decide⟩
  have after := (inv.step_keyed (by decide) small legal.1 (fun _ _ => by decide) other).1 leaves
  refine ⟨narrow_created, twoSame_run, legal, other, ?_, ?_⟩
  · rw [Inv.find_eq, before]
    rfl
  · rw [Inv.find_eq, after, before]
    rfl

end EventHub.Hashtbl
