import EventHub.Hashtbl.Table
import EventHub.Library.Doubling
import Mathlib.Data.List.Nodup
import Mathlib.Tactic.Ring

/-! Where the nodes of a table are: each in the finest made bucket of its hash. What
resizing, remaking a bucket and moving single nodes do to this. -/

namespace EventHub.Hashtbl
open Library Library.Doubling

namespace EhHashtbl
variable (t : EhHashtbl) (x y i j : Nat)

def isMade (i : Nat) : Bool := !t.isNeedRemake i

@[simp] theorem isNeedRemake_eq : t.isNeedRemake i = !t.isMade i := by simp [isMade]

@[simp] theorem isMade_setBucket (b : List Nat) :
    (t.setBucket i b).isMade j = (t.isMade j || j == i) := by
  unfold isMade isNeedRemake setBucket
  by_cases h : j = i
  · simp [h]
  · simp [h, Function.update_of_ne]

@[simp] theorem nodes_setBucket (b : List Nat) :
    (t.setBucket i b).nodes j = if j = i then b else t.nodes j := by
  unfold nodes setBucket
  by_cases h : j = i
  · simp [h]
  · simp [h, Function.update_of_ne]

@[simp] theorem isMade_listAdd : (t.listAdd x i).isMade j = (t.isMade j || j == i) :=
  isMade_setBucket ..

@[simp] theorem nodes_listAdd :
    (t.listAdd x i).nodes j = if j = i then x :: t.nodes i else t.nodes j :=
  nodes_setBucket ..

@[simp] theorem isMade_listDel : (t.listDel x).isMade j = t.isMade j := by
  simp [isMade, isNeedRemake, listDel]

@[simp] theorem nodes_listDel : (t.listDel x).nodes j = (t.nodes j).erase x := by
  unfold nodes listDel
  dsimp only
  cases t.table j <;> rfl

@[simp] theorem isMade_initIfNeeded :
    (t.initIfNeeded i).isMade j = (t.isMade j || j == i) := by
  unfold initIfNeeded
  split
  · exact isMade_setBucket ..
  · by_cases h : j = i <;> simp_all

@[simp] theorem nodes_initIfNeeded : (t.initIfNeeded i).nodes j = t.nodes j := by
  unfold initIfNeeded
  split
  · rename_i pending
    rw [nodes_setBucket]
    split
    · rename_i same
      unfold isNeedRemake at pending
      rw [same, nodes, Option.isNone_iff_eq_none.mp pending]
      rfl
    · rfl
  · rfl

@[simp] theorem mask_initIfNeeded : (t.initIfNeeded i).mask = t.mask := by
  unfold initIfNeeded
  split <;> rfl

theorem nodes_of_pending (pending : t.isMade i = false) : t.nodes i = [] := by
  unfold isMade isNeedRemake at pending
  unfold nodes
  cases h : t.table i <;> simp_all

end EhHashtbl

/-- `stored` are in the buckets of `t`, a table of `2 ^ k` buckets. -/
structure Placed (shift : Nat) (hashVal : Nat → Nat) (stored : List Nat) (t : EhHashtbl)
    (k : Nat) : Prop where
  mask : t.mask = 2 ^ k - 1
  least : shift ≤ k
  made : ∀ i < 2 ^ shift, t.isMade i
  bound : ∀ i, 2 ^ k ≤ i → t.isMade i = false
  mem : ∀ x i, x ∈ t.nodes i ↔ x ∈ stored ∧ home t.isMade (hashVal x) k = i
  nodup : ∀ i, (t.nodes i).Nodup

section Remake
variable {hashVal : Nat → Nat} {t : EhHashtbl} {shift k old x : Nat} {stored l : List Nat}

theorem madeMask_eq (t : EhHashtbl) (idx k : Nat) :
    idx &&& madeMask t idx (2 ^ k - 1) = home t.isMade idx k := by
  induction k with
  | zero =>
    rw [madeMask]
    simp [home]
  | succ k ih =>
    have positive := Nat.two_pow_pos k
    have nonzero : 2 ^ (k + 1) - 1 ≠ 0 := by
      rw [Nat.pow_succ]
      omega
    have half : (2 ^ (k + 1) - 1) >>> 1 = 2 ^ k - 1 := by
      rw [Nat.shiftRight_eq_div_pow, Nat.pow_succ]
      omega
    rw [madeMask, half, home, Nat.and_two_pow_sub_one_eq_mod]
    by_cases here : t.isMade (idx % 2 ^ (k + 1))
    · simp [here, Nat.and_two_pow_sub_one_eq_mod]
    · simp [here, nonzero, ih]

/-- What the loop over the old bucket does to the buckets. -/
theorem foldl_remakeNode (hashVal : Nat → Nat) (old : Nat)
    (nodup : ∀ i, (t.nodes i).Nodup) (distinct : l.Nodup) :
    let t' := l.foldl (remakeNode hashVal old) t
    let target := fun x => hashVal x &&& t.mask
    (∀ i, t'.isMade i ↔ t.isMade i ∨ ∃ x ∈ l, target x = i ∧ i ≠ old) ∧
    (∀ x i, x ∈ t'.nodes i ↔
      if x ∈ l ∧ target x ≠ old then target x = i else x ∈ t.nodes i) ∧
    (∀ i, (t'.nodes i).Nodup) ∧
    t'.mask = t.mask ∧ t'.threshold = t.threshold ∧ t'.count = t.count := by
  induction l generalizing t with
  | nil => simpa using nodup
  | cons x l ih =>
    obtain ⟨fresh, distinct⟩ := List.nodup_cons.mp distinct
    dsimp only
    rw [List.foldl_cons]
    by_cases stays : hashVal x &&& t.mask = old
    · have same : remakeNode hashVal old t x = t := if_neg (not_not.mpr stays)
      rw [same]
      obtain ⟨made, mem, rest⟩ := ih nodup distinct
      refine ⟨fun i => ?_, fun y i => ?_, rest⟩
      · rw [made i]
        grind
      · rw [mem y i]
        grind
    · have moved : remakeNode hashVal old t x =
          ((t.listDel x).initIfNeeded (hashVal x &&& t.mask)).listAdd x (hashVal x &&& t.mask) :=
        if_pos stays
      let j := hashVal x &&& t.mask
      let t₁ := ((t.listDel x).initIfNeeded j).listAdd x j
      have mask : t₁.mask = t.mask := EhHashtbl.mask_initIfNeeded ..
      have fields : t₁.threshold = t.threshold ∧ t₁.count = t.count := by
        simp only [t₁, EhHashtbl.listAdd, EhHashtbl.setBucket, EhHashtbl.initIfNeeded]
        split <;> exact ⟨rfl, rfl⟩
      have made₁ : ∀ i, t₁.isMade i ↔ t.isMade i ∨ i = j := by
        intro i
        simp [t₁]
      have nodes₁ : ∀ i, t₁.nodes i =
          if i = j then x :: (t.nodes j).erase x else (t.nodes i).erase x := by
        intro i
        simp [t₁]
      have nodup₁ : ∀ i, (t₁.nodes i).Nodup := by
        intro i
        rw [nodes₁]
        split
        · exact List.nodup_cons.mpr ⟨(nodup j).not_mem_erase, (nodup j).erase x⟩
        · exact (nodup i).erase x
      have mem₁ : ∀ y i, y ∈ t₁.nodes i ↔ if y = x then j = i else y ∈ t.nodes i := by
        intro y i
        rw [nodes₁]
        by_cases same : i = j
        · subst same
          simp only [if_true, List.mem_cons, (nodup j).mem_erase_iff]
          grind
        · simp only [if_neg same, (nodup i).mem_erase_iff]
          grind
      obtain ⟨made, mem, nodup', mask', threshold', count'⟩ := ih nodup₁ distinct
      rw [mask] at made mem mask'
      rw [show remakeNode hashVal old t x = t₁ from moved]
      refine ⟨fun i => ?_, fun y i => ?_, nodup', mask', threshold'.trans fields.1,
        count'.trans fields.2⟩
      · rw [made i, made₁ i]
        grind
      · rw [mem y i, mem₁ y i]
        grind

theorem Placed.old_eq (h : Placed shift hashVal stored t k) (hk : 1 ≤ k) {idx : Nat}
    (lt : idx < 2 ^ k) (pending : t.isMade idx = false) :
    home t.isMade idx k = idx &&& madeMask t idx (t.mask >>> 1) := by
  obtain ⟨j, rfl⟩ : ∃ j, k = j + 1 := ⟨k - 1, by omega⟩
  have half : t.mask >>> 1 = 2 ^ j - 1 := by
    rw [h.mask, Nat.shiftRight_eq_div_pow, Nat.pow_succ]
    have := Nat.two_pow_pos j
    omega
  rw [half, madeMask_eq, home, Nat.mod_eq_of_lt lt, pending]
  rfl

theorem Placed.tryRemake (h : Placed shift hashVal stored t k) (hk : 1 ≤ k) {idx : Nat}
    (lt : idx < 2 ^ k) :
    let t' := ehHashtblTryRemake hashVal t idx
    Placed shift hashVal stored t' k ∧ t'.isMade idx ∧ t'.threshold = t.threshold ∧
      t'.count = t.count := by
  dsimp only
  unfold ehHashtblTryRemake
  by_cases made : t.isMade idx
  · rw [if_neg (by simp [made])]
    exact ⟨h, made, rfl, rfl⟩
  rw [if_pos (by simp [made])]
  have pending : t.isMade idx = false := by simpa using made
  rw [← h.old_eq hk lt pending]
  dsimp only
  have zero : t.isMade 0 := h.made 0 (Nat.two_pow_pos _)
  have oldMade : t.isMade (home t.isMade idx k) := home_made zero
  -- the nodes of the old bucket, each of which goes where its whole hash says
  generalize oldEq : home t.isMade idx k = oldIdx at *
  obtain ⟨made', mem', nodup', mask', threshold', count'⟩ :=
    foldl_remakeNode hashVal oldIdx h.nodup (h.nodup oldIdx)
  generalize (t.nodes oldIdx).foldl (remakeNode hashVal oldIdx) t = t₁ at *
  have target : ∀ x, hashVal x &&& t.mask = hashVal x % 2 ^ k := fun x => by
    rw [h.mask, Nat.and_two_pow_sub_one_eq_mod]
  simp only [target] at made' mem'
  have madeIdx : ∀ i, (t₁.initIfNeeded idx).isMade i ↔ t₁.isMade i ∨ i = idx := by simp
  have more : ∀ c, t.isMade c → (t₁.initIfNeeded idx).isMade c := fun c here =>
    (madeIdx c).mpr (.inl ((made' c).mpr (.inl here)))
  have new : ∀ c, (t₁.initIfNeeded idx).isMade c → t.isMade c = false →
      home t.isMade c k = oldIdx := by
    intro c here pending
    rcases (madeIdx c).mp here with here | rfl
    · rcases (made' c).mp here with made | ⟨y, inOld, rfl, -⟩
      · simp [made] at pending
      · rw [home_mod (le_refl k)]
        exact ((h.mem y oldIdx).mp inOld).2
    · exact oldEq
  refine ⟨⟨?_, h.least, fun i small => more i (h.made i small), fun i large => ?_,
    fun x i => ?_, fun i => by rw [EhHashtbl.nodes_initIfNeeded]; exact nodup' i⟩, ?_, ?_, ?_⟩
  · rw [EhHashtbl.mask_initIfNeeded, mask', h.mask]
  · by_contra here
    rcases (madeIdx i).mp (Bool.eq_true_of_not_eq_false here) with here | rfl
    · rcases (made' i).mp here with made | ⟨y, -, rfl, -⟩
      · simp [h.bound i large] at made
      · exact absurd (Nat.mod_lt (hashVal y) (Nat.two_pow_pos k)) (Nat.not_lt.mpr large)
    · omega
  · rw [EhHashtbl.nodes_initIfNeeded, mem' x i]
    by_cases inOld : x ∈ t.nodes oldIdx
    · obtain ⟨stored, here⟩ := (h.mem x oldIdx).mp inOld
      have exact' : home (t₁.initIfNeeded idx).isMade (hashVal x) k = hashVal x % 2 ^ k := by
        refine home_of_made ((madeIdx _).mpr (.inl ((made' _).mpr ?_)))
        by_cases stays : hashVal x % 2 ^ k = oldIdx
        · exact .inl (stays ▸ oldMade)
        · exact .inr ⟨x, inOld, rfl, stays⟩
      rw [exact']
      by_cases stays : hashVal x % 2 ^ k = oldIdx
      · rw [if_neg (by simp [stays]), stays, h.mem x i]
        simp [stored, here]
      · rw [if_pos ⟨inOld, stays⟩]
        simp [stored]
    · rw [if_neg (by simp [inOld]), h.mem x i]
      refine and_congr_right fun stored => ?_
      have other : home t.isMade (hashVal x) k ≠ oldIdx := fun same =>
        inOld ((h.mem x oldIdx).mpr ⟨stored, same⟩)
      rw [home_make more new other]
  · exact (madeIdx idx).mpr (.inr rfl)
  · rw [← threshold']
    unfold EhHashtbl.initIfNeeded
    split <;> rfl
  · rw [← count']
    unfold EhHashtbl.initIfNeeded
    split <;> rfl

end Remake

section Update
variable {hashVal : Nat → Nat} {t : EhHashtbl} {shift k x y : Nat} {stored : List Nat}

theorem Placed.congr (h : Placed shift hashVal stored t k) {t' : EhHashtbl}
    {hashVal' : Nat → Nat} (table : t'.table = t.table) (mask : t'.mask = t.mask)
    (hash : ∀ x ∈ stored, hashVal' x = hashVal x) : Placed shift hashVal' stored t' k := by
  obtain ⟨_, _, _, _⟩ := t
  obtain ⟨_, _, _, _⟩ := t'
  cases table
  cases mask
  refine ⟨h.mask, h.least, h.made, h.bound, fun x i => (h.mem x i).trans ?_, h.nodup⟩
  exact and_congr_right fun mem => by rw [hash x mem]; rfl

theorem Placed.insert (h : Placed shift hashVal stored t k) (new : x ∉ stored)
    (made : t.isMade (hashVal x % 2 ^ k)) :
    Placed shift hashVal (x :: stored) (t.listAdd x (hashVal x % 2 ^ k)) k := by
  have same : (t.listAdd x (hashVal x % 2 ^ k)).isMade = t.isMade := by
    funext i
    by_cases here : i = hashVal x % 2 ^ k
    · simp [here, made]
    · simp [here]
  refine ⟨h.mask, h.least, fun i => ?_, fun i => ?_, fun y i => ?_, fun i => ?_⟩
  · rw [same]
    exact h.made i
  · rw [same]
    exact h.bound i
  · rw [same, EhHashtbl.nodes_listAdd]
    have outside : ∀ i, x ∉ t.nodes i := fun i mem => new ((h.mem x i).mp mem).1
    have home := home_of_made made
    have others := h.mem y i
    grind
  · rw [EhHashtbl.nodes_listAdd]
    split
    · exact List.nodup_cons.mpr ⟨fun mem => new ((h.mem _ _).mp mem).1, h.nodup _⟩
    · exact h.nodup i

theorem Placed.delete (h : Placed shift hashVal stored t k) (distinct : stored.Nodup) :
    Placed shift hashVal (stored.erase x) (t.listDel x) k where
  mask := h.mask
  least := h.least
  made i small := by simpa using h.made i small
  bound i large := by simpa using h.bound i large
  mem y i := by
    have same : (t.listDel x).isMade = t.isMade := funext fun i => by simp
    rw [same, EhHashtbl.nodes_listDel, (h.nodup i).mem_erase_iff, distinct.mem_erase_iff,
      h.mem y i, and_assoc]
  nodup i := by
    rw [EhHashtbl.nodes_listDel]
    exact (h.nodup i).erase x

/-- `y` takes the place of `x`. -/
def substitute (x y z : Nat) : Nat := if z = x then y else z

theorem substitute_injOn {l : List Nat} (new : y ∉ l) :
    ∀ a ∈ l, ∀ b ∈ l, substitute x y a = substitute x y b → a = b := by
  intro a memA b memB same
  unfold substitute at same
  grind

theorem mem_map_substitute {l : List Nat} {z : Nat} (new : y ∉ l) (ne : x ≠ y) :
    z ∈ l.map (substitute x y) ↔ if z = y then x ∈ l else z ≠ x ∧ z ∈ l := by
  unfold substitute
  grind

theorem Placed.replace (h : Placed shift hashVal stored t k) (new : y ∉ stored) (ne : x ≠ y)
    (hash : hashVal y = hashVal x) {t' : EhHashtbl} (mask : t'.mask = t.mask)
    (table : ∀ i, t'.table i = (t.table i).map fun bucket => bucket.map (substitute x y)) :
    Placed shift hashVal (stored.map (substitute x y)) t' k := by
  have made : t'.isMade = t.isMade := by
    funext i
    simp [EhHashtbl.isMade, EhHashtbl.isNeedRemake, table]
  have nodes : ∀ i, t'.nodes i = (t.nodes i).map (substitute x y) := by
    intro i
    rw [EhHashtbl.nodes, table]
    unfold EhHashtbl.nodes
    cases t.table i <;> rfl
  have outside : ∀ i, y ∉ t.nodes i := fun i mem => new ((h.mem y i).mp mem).1
  refine ⟨mask.trans h.mask, h.least, made ▸ h.made, made ▸ h.bound, fun z i => ?_, fun i => ?_⟩
  · rw [nodes, made, mem_map_substitute (outside i) ne, mem_map_substitute new ne]
    split
    · rename_i same
      rw [same, hash]
      exact h.mem x i
    · rw [and_assoc, h.mem z i]
  · rw [nodes]
    exact (h.nodup i).map_on (substitute_injOn (outside i))

theorem Placed.table_resize (h : Placed shift hashVal stored t k) (small : k ≤ 30) :
    (ehHashtblResize t true).2.table = t.table := by
  have bound : 2 ^ k ≤ 2 ^ 30 := Nat.pow_le_pow_right (by decide) small
  have size := Nat.two_pow_pos k
  funext i
  have old : (t.mask + 1) % 4294967296 = 2 ^ k := by
    rw [h.mask]
    omega
  simp only [ehHashtblResize, not_true_eq_false, if_false, old]
  split
  · rfl
  · have := h.bound i (by omega)
    unfold EhHashtbl.isMade EhHashtbl.isNeedRemake at this
    cases entry : t.table i <;> simp_all

theorem Placed.resize (h : Placed shift hashVal stored t k) (small : k ≤ 30) :
    Placed shift hashVal stored (ehHashtblResize t true).2 (k + 1) := by
  have size := Nat.two_pow_pos k
  have bound : 2 ^ k ≤ 2 ^ 30 := Nat.pow_le_pow_right (by decide) small
  have table := h.table_resize small
  have same : (ehHashtblResize t true).2.isMade = t.isMade := by
    funext i
    simp [EhHashtbl.isMade, EhHashtbl.isNeedRemake, table]
  have nodes : ∀ i, (ehHashtblResize t true).2.nodes i = t.nodes i := fun i => by
    simp [EhHashtbl.nodes, table]
  refine ⟨?_, Nat.le_succ_of_le h.least, same ▸ h.made, fun i large => ?_, fun x i => ?_,
    fun i => ?_⟩
  · simp only [ehHashtblResize, not_true_eq_false, if_false, h.mask, Nat.shiftLeft_eq,
      Nat.pow_succ]
    omega
  · rw [same]
    exact h.bound i (le_trans (Nat.pow_le_pow_right (by decide) (Nat.le_succ k)) large)
  · rw [same, nodes, home_double h.bound]
    exact h.mem x i
  · rw [nodes]
    exact h.nodup i

end Update

end EventHub.Hashtbl
