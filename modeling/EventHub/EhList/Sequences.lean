import EventHub.EhList.Lists

/-! The lists of `eh_list.h` as sequences of nodes, one for each head. A node that
`eh_list_del_init` has taken out is a head itself, of an empty list. -/

namespace EventHub.EhList
open Library

/-- What is behind each head; `none` for a node that is no head. -/
abbrev State := Nat → Option (List Nat)

/-- The new nodes come behind `p`. -/
def insertBehind (p : Nat) (new : List Nat) : List Nat → List Nat
  | [] => []
  | x :: l => if x = p then x :: (new ++ l) else x :: insertBehind p new l

/-- The new node comes before `p`. -/
def insertBefore (p new : Nat) : List Nat → List Nat
  | [] => []
  | x :: l => if x = p then new :: x :: l else x :: insertBefore p new l

namespace State
variable (s : State)

def ring (h : Nat) : List Nat := (s h).elim [] (h :: ·)

/-- `x` is no head. -/
def forget (x : Nat) : State := Function.update s x none

def erase (x : Nat) : State := fun h => (s h).map (·.erase x)

def head (x : Nat) : State := Function.update s x (some [])

def behind (p : Nat) (new : List Nat) : State := fun h =>
  (s h).map fun l => if h = p then new ++ l else insertBehind p new l

def before (p new : Nat) : State := fun h =>
  (s h).map fun l => if h = p then l ++ [new] else insertBefore p new l

end State

/-- The nodes behind the head `list` come behind `p`; `list` is no head any more. -/
def specSplice (s : State) (list p : Nat) : State :=
  match s list with
  | some (x :: l) => (s.forget list).behind p (x :: l)
  | _ => s

def specEdit (s : State) : Edit → State
  | .headInit ptr => s.head ptr
  | .add new p => (s.forget new).behind p [new]
  | .addTail new p => (s.forget new).before p new
  | .del x => (s.forget x).erase x
  | .delInit x => ((s.forget x).erase x).head x
  | .move x p => ((s.forget x).erase x).behind p [x]
  | .moveTail x p => ((s.forget x).erase x).before p x
  | .splice list p => specSplice s list p
  | .spliceInit list p => (specSplice s list p).head list

def along (l : List Nat) : Dir → List Nat
  | .next => l
  | .prev => l.reverse

def State.seq (s : State) (d : Dir) (h : Nat) : List Nat := along ((s h).getD []) d

/-- The nodes behind `x`. -/
def after (x : Nat) : List Nat → List Nat
  | [] => []
  | y :: l => if y = x then l else after x l

/-- A loop over `rest` that goes on at the node that was the next one before the body. -/
def specSafe (d : Dir) (h : Nat) (s : State) : List Nat → List (List Edit) → State × List Nat
  | x :: rest, body :: bodies =>
    let s := body.foldl specEdit s
    let done := specSafe d h s (rest.head?.elim [] fun n => n :: after n (s.seq d h)) bodies
    (done.1, x :: done.2)
  | _, _ => (s, [])

def specStep (s : State) : Op → State × Result
  | .edit e => (specEdit s e, .void)
  | .empty p => (s, .empty (s p = some []))
  | .forEach d h _ => (s, .visited (some (s.seq d h)))
  | .forEachContinue d x h _ => (s, .visited (some (after x (s.seq d h))))
  | .forEachSafe d h bodies =>
    let done := specSafe d h s (s.seq d h) bodies
    (done.1, .visited (some done.2))
  | .forEachContinueSafe d x h bodies =>
    let done := specSafe d h s (after x (s.seq d h)) bodies
    (done.1, .visited (some done.2))

def specRun (s : State) : List Op → State × List Result
  | [] => (s, [])
  | op :: ops =>
    let done := specStep s op
    let rest := specRun done.1 ops
    (rest.1, done.2 :: rest.2)

def Loose (s : State) (x : Nat) : Prop :=
  x ≠ 0 ∧ (s x).getD [] = [] ∧ ∀ h, x ∉ (s h).getD []

def On (s : State) (x : Nat) : Prop := ∃ h, x ∈ s.ring h

def LegalEdit (s : State) : Edit → Prop
  | .headInit ptr => ptr ≠ 0 ∧ ∀ h, ptr ∉ (s h).getD []
  | .add new p | .addTail new p => Loose s new ∧ On s p ∧ new ≠ p
  | .del x | .delInit x => On s x ∧ (s x).getD [] = []
  | .move x p | .moveTail x p => (On s x ∧ (s x).getD [] = []) ∧ On s p ∧ x ≠ p
  | .splice list p | .spliceInit list p => (s list).isSome ∧ On s p ∧ p ∉ s.ring list

def LegalEdits (s : State) : List Edit → Prop
  | [] => True
  | e :: es => LegalEdit s e ∧ LegalEdits (specEdit s e) es

def LegalSafe (d : Dir) (h : Nat) (s : State) : List Nat → List (List Edit) → Prop
  | _ :: rest, body :: bodies => LegalEdits s body ∧
    (let s := body.foldl specEdit s
    (s h).isSome ∧ (∀ n ∈ rest.head?, n ∈ s.seq d h) ∧
      LegalSafe d h s (rest.head?.elim [] fun n => n :: after n (s.seq d h)) bodies)
  | _, _ => True

def Legal (s : State) : Op → Prop
  | .edit e => LegalEdit s e
  | .empty p => On s p
  | .forEach _ h fuel => (s h).isSome ∧ ((s h).getD []).length < fuel
  | .forEachContinue _ x h fuel => x ∈ (s h).getD [] ∧ ((s h).getD []).length < fuel
  | .forEachSafe d h bodies => (s h).isSome ∧ LegalSafe d h s (s.seq d h) bodies
  | .forEachContinueSafe d x h bodies => x ∈ (s h).getD [] ∧
    LegalSafe d h s (after x (s.seq d h)) bodies

def LegalRun (s : State) : List Op → Prop
  | [] => True
  | op :: ops => Legal s op ∧ LegalRun (specStep s op).1 ops

theorem LegalRun.append {s : State} {ops ops' : List Op} (first : LegalRun s ops)
    (second : LegalRun (specRun s ops).1 ops') : LegalRun s (ops ++ ops') := by
  induction ops generalizing s with
  | nil => exact second
  | cons op ops ih => exact ⟨first.1, ih first.2 second⟩

structure Holds (m : Memory) (s : State) : Prop where
  rings : Rings m s.ring
  nonnull : ∀ h, 0 ∉ s.ring h

section Insert
variable {p x : ℕ} {new front back l : List ℕ}

theorem insertBehind_split (out : p ∉ front) :
    insertBehind p new (front ++ p :: back) = front ++ p :: (new ++ back) := by
  induction front with
  | nil => simp [insertBehind]
  | cons y front ih =>
    obtain ⟨ne, out⟩ := List.ne_and_not_mem_of_not_mem_cons out
    simp [insertBehind, ne.symm, ih out]

theorem insertBehind_out (out : p ∉ l) : insertBehind p new l = l := by
  induction l with
  | nil => rfl
  | cons y l ih =>
    obtain ⟨ne, out⟩ := List.ne_and_not_mem_of_not_mem_cons out
    simp [insertBehind, ne.symm, ih out]

theorem insertBefore_split (out : p ∉ front) :
    insertBefore p x (front ++ p :: back) = front ++ x :: p :: back := by
  induction front with
  | nil => simp [insertBefore]
  | cons y front ih =>
    obtain ⟨ne, out⟩ := List.ne_and_not_mem_of_not_mem_cons out
    simp [insertBefore, ne.symm, ih out]

theorem insertBefore_out (out : p ∉ l) : insertBefore p x l = l := by
  induction l with
  | nil => rfl
  | cons y l ih =>
    obtain ⟨ne, out⟩ := List.ne_and_not_mem_of_not_mem_cons out
    simp [insertBefore, ne.symm, ih out]

theorem after_split (out : x ∉ front) : after x (front ++ x :: back) = back := by
  induction front with
  | nil => simp [after]
  | cons y front ih =>
    obtain ⟨ne, out⟩ := List.ne_and_not_mem_of_not_mem_cons out
    simp [after, ne.symm, ih out]

end Insert

section Rings
variable {m m' : Memory} {s s' : State} {h p x y : ℕ} {l front back new : List ℕ}

theorem ring_some (eq : s h = some l) : s.ring h = h :: l := by
  rw [State.ring, eq]
  rfl

theorem ring_none (eq : s h = none) : s.ring h = [] := by
  rw [State.ring, eq]
  rfl

theorem mem_ring (mem : x ∈ s.ring h) : ∃ l, s h = some l ∧ x ∈ h :: l := by
  cases eq : s h with
  | none =>
    rw [ring_none eq] at mem
    cases mem
  | some l => exact ⟨l, rfl, ring_some eq ▸ mem⟩

theorem ring_update (v : Option (List ℕ)) :
    State.ring (Function.update s x v) = Function.update s.ring x (v.elim [] (x :: ·)) := by
  funext h
  by_cases eq : h = x
  · subst eq
    simp [State.ring]
  · simp [State.ring, eq]

theorem Holds.replace (holds : Holds m s) (rings : Rings m' (Function.update s.ring h l))
    (ring : s'.ring = Function.update s.ring h l) (nonnull : 0 ∉ l) : Holds m' s' where
  rings := ring ▸ rings
  nonnull j := by
    rw [ring]
    by_cases eq : j = h
    · subst eq
      simpa using nonnull
    · simpa [eq] using holds.nonnull j

theorem Holds.forget (holds : Holds m s) (x : ℕ) : Holds m (s.forget x) := by
  refine holds.replace ?_ (ring_update none) (by simp)
  exact holds.rings.replace trivial (fun _ _ _ _ => ⟨rfl, rfl⟩) (by simp)

theorem ring_map {f : ℕ → List ℕ → List ℕ} (here : s h = some l)
    (others : ∀ j k, j ≠ h → s j = some k → f j k = k) :
    State.ring (fun j => (s j).map (f j)) = Function.update s.ring h (h :: f h l) := by
  funext j
  by_cases eq : j = h
  · subst eq
    rw [Function.update_self]
    exact ring_some (by rw [here]; rfl)
  · rw [Function.update_of_ne eq]
    cases there : s j with
    | none => rw [ring_none there, ring_none (by rw [there]; rfl)]
    | some k =>
      rw [ring_some there]
      exact ring_some (by rw [there, Option.map_some, others j k eq there])

theorem Holds.elsewhere (holds : Holds m s) (mem : p ∈ s.ring h) {j : ℕ} {k : List ℕ}
    (ne : j ≠ h) (there : s j = some k) : p ≠ j ∧ p ∉ k := by
  have out : p ∉ j :: k := fun mem' => ne (holds.rings.disjoint (ring_some there ▸ mem') mem)
  exact List.ne_and_not_mem_of_not_mem_cons out

theorem Holds.split (holds : Holds m s) (at_ : s.ring h = front ++ p :: back) :
    s h = some back ∧ h = p ∧ front = [] ∨
      ∃ k, s h = some (k ++ p :: back) ∧ front = h :: k ∧ h ≠ p ∧ p ∉ k := by
  obtain ⟨l, here, -⟩ := mem_ring (show p ∈ s.ring h by simp [at_])
  have nodup := (holds.rings.ring h).nodup
  rw [ring_some here] at at_ nodup
  cases front with
  | nil =>
    obtain ⟨rfl, rfl⟩ := List.cons.inj at_
    exact .inl ⟨here, rfl, rfl⟩
  | cons y k =>
    obtain ⟨rfl, rfl⟩ := List.cons.inj at_
    obtain ⟨out, inner⟩ := List.nodup_cons.mp nodup
    have ne : h ≠ p := fun eq => out (by simp [eq])
    exact .inr ⟨k, here, rfl, ne, fun mem =>
      (List.nodup_append.mp inner).2.2 p mem p (by simp) rfl⟩

theorem Holds.ring_behind (holds : Holds m s) (at_ : s.ring h = front ++ p :: back) :
    (s.behind p new).ring = Function.update s.ring h (front ++ p :: (new ++ back)) := by
  have mem : p ∈ s.ring h := by simp [at_]
  have others : ∀ j k, j ≠ h → s j = some k →
      (if j = p then new ++ k else insertBehind p new k) = k := by
    intro j k ne there
    obtain ⟨ne', out⟩ := holds.elsewhere mem ne there
    rw [if_neg ne'.symm, insertBehind_out out]
  rcases holds.split at_ with ⟨here, rfl, rfl⟩ | ⟨k, here, rfl, ne, out⟩
  · refine (ring_map here others).trans ?_
    rw [if_pos rfl]
    rfl
  · refine (ring_map here others).trans ?_
    rw [if_neg ne, insertBehind_split out]
    rfl

theorem Holds.ring_before (holds : Holds m s) (at_ : s.ring h = front ++ p :: back) :
    (s.before p x).ring = Function.update s.ring h
      (if h = p then h :: (back ++ [x]) else front ++ x :: p :: back) := by
  have mem : p ∈ s.ring h := by simp [at_]
  have others : ∀ j k, j ≠ h → s j = some k →
      (if j = p then k ++ [x] else insertBefore p x k) = k := by
    intro j k ne there
    obtain ⟨ne', out⟩ := holds.elsewhere mem ne there
    rw [if_neg ne'.symm, insertBefore_out out]
  rcases holds.split at_ with ⟨here, rfl, rfl⟩ | ⟨k, here, rfl, ne, out⟩
  · refine (ring_map here others).trans ?_
    rw [if_pos rfl, if_pos rfl]
  · refine (ring_map here others).trans ?_
    rw [if_neg ne, if_neg ne, insertBefore_split out]
    rfl

theorem Holds.ring_erase (holds : Holds m s) (at_ : s.ring h = front ++ x :: back)
    (ne : h ≠ x) : (s.erase x).ring = Function.update s.ring h (front ++ back) := by
  have mem : x ∈ s.ring h := by simp [at_]
  have others : ∀ j k, j ≠ h → s j = some k → k.erase x = k := by
    intro j k ne there
    obtain ⟨-, out⟩ := holds.elsewhere mem ne there
    exact List.erase_of_not_mem out
  rcases holds.split at_ with ⟨-, eq, -⟩ | ⟨k, here, rfl, -, out⟩
  · exact absurd eq ne
  · refine (ring_map here others).trans ?_
    rw [List.erase_append_right _ out, List.erase_cons_head]
    rfl

theorem Holds.attachBehind (holds : Holds m s) (out : ∀ h, x ∉ s.ring h) (nonnull : x ≠ 0)
    (on : On s p) : Holds (m.add x p) (s.behind p [x]) := by
  obtain ⟨h, mem⟩ := on
  obtain ⟨front, back, at_⟩ := List.append_of_mem mem
  have ring : m.Ring (front ++ p :: back) := at_ ▸ holds.rings.ring h
  have old := holds.nonnull h
  refine holds.replace ?_ (holds.ring_behind at_) ?_
  · apply holds.rings.enter out
    · exact ring.add_mid (at_ ▸ out h)
    · exact (holds.rings.ring h).add_mid_agree mem x
    · intro y mem'
      rw [at_]
      simp only [List.mem_cons, List.mem_append, List.not_mem_nil, or_false] at mem' ⊢
      tauto
  · rw [at_] at old
    simp only [List.mem_cons, List.mem_append, List.not_mem_nil, or_false] at old ⊢
    tauto

theorem Holds.attachBefore (holds : Holds m s) (out : ∀ h, x ∉ s.ring h) (nonnull : x ≠ 0)
    (on : On s p) : Holds (m.addTail x p) (s.before p x) := by
  obtain ⟨h, mem⟩ := on
  obtain ⟨front, back, at_⟩ := List.append_of_mem mem
  have ring : m.Ring (front ++ p :: back) := at_ ▸ holds.rings.ring h
  have old := holds.nonnull h
  have same : (if h = p then h :: (back ++ [x]) else front ++ x :: p :: back).Perm
      (x :: s.ring h) := by
    rcases holds.split at_ with ⟨-, eq, empty⟩ | ⟨k, -, -, ne, -⟩
    · rw [if_pos eq, at_, empty, eq]
      exact (List.perm_append_singleton x (p :: back))
    · rw [if_neg ne, at_]
      exact List.perm_middle
  refine holds.replace ?_ (holds.ring_before at_) fun null => ?_
  · apply holds.rings.enter out
    · rcases holds.split at_ with ⟨-, eq, empty⟩ | ⟨k, -, -, ne, -⟩
      · subst eq empty
        rw [if_pos rfl]
        exact Links.Ring.addTail ring fun mem' => out h (at_ ▸ mem')
      · rw [if_neg ne]
        exact ring.addTail_mid (at_ ▸ out h)
    · exact (holds.rings.ring h).addTail_mid_agree mem x
    · exact fun y mem' => same.mem_iff.mp mem'
  · rcases List.mem_cons.mp (same.mem_iff.mp null) with eq | mem'
    · exact nonnull eq.symm
    · exact old mem'

theorem Holds.attachHead (holds : Holds m s) (out : ∀ h, x ∉ s.ring h) (nonnull : x ≠ 0) :
    Holds (m.alone x) (s.head x) := by
  refine holds.replace ?_ (ring_update (some [])) ?_
  · apply holds.rings.enter out
    · exact Links.ring_singleton.mpr (by simp)
    · exact fun y mem => m.alone_agree x y (List.ne_and_not_mem_of_not_mem_cons mem).1
    · exact fun y mem => by simp [List.mem_singleton.mp mem]
  · simpa using nonnull.symm

theorem ring_forget_sub (s : State) (x h : ℕ) : (s.forget x).ring h ⊆ s.ring h := by
  rw [State.forget, ring_update]
  by_cases eq : h = x
  · subst eq
    simp
  · simp [eq]

theorem mem_ring_forget (mem : y ∈ s.ring h) (ne : h ≠ x) : y ∈ (s.forget x).ring h := by
  rw [State.forget, ring_update, Function.update_of_ne ne]
  exact mem

theorem forget_out (out : ∀ h, x ∉ (s h).getD []) (h : ℕ) : x ∉ (s.forget x).ring h := by
  intro mem
  obtain ⟨l, here, mem⟩ := mem_ring mem
  have ne : h ≠ x := fun eq => by simp [State.forget, eq] at here
  rw [State.forget, Function.update_of_ne ne] at here
  rcases List.mem_cons.mp mem with eq | mem
  · exact ne eq.symm
  · exact out h (by rwa [here])

theorem erase_out (out : ∀ h, x ∉ s.ring h) : s.erase x = s := by
  funext h
  cases here : s h with
  | none => rw [State.erase, here]; rfl
  | some l =>
    have out' : x ∉ l := fun mem => out h (ring_some here ▸ List.mem_cons_of_mem _ mem)
    rw [State.erase, here, Option.map_some, List.erase_of_not_mem out']

theorem On.forget (on : On s p) (empty : (s x).getD [] = []) (ne : x ≠ p) :
    On (s.forget x) p := by
  obtain ⟨h, mem⟩ := on
  refine ⟨h, mem_ring_forget mem fun eq => ?_⟩
  subst eq
  obtain ⟨l, here, mem⟩ := mem_ring mem
  rw [here] at empty
  have nil : l = [] := empty
  subst nil
  exact ne (List.mem_singleton.mp mem).symm

theorem On.erase (on : On s p) (ne : x ≠ p) : On (s.erase x) p := by
  obtain ⟨h, mem⟩ := on
  obtain ⟨l, here, mem⟩ := mem_ring mem
  refine ⟨h, ?_⟩
  rw [ring_some (l := l.erase x) (by rw [State.erase, here]; rfl)]
  rcases List.mem_cons.mp mem with eq | mem
  · exact List.mem_cons.mpr (.inl eq)
  · exact List.mem_cons_of_mem _ ((List.mem_erase_of_ne ne.symm).mpr mem)

theorem Holds.detach (holds : Holds m s) (on : On s x) (empty : (s x).getD [] = []) :
    Holds (m.unlink x) ((s.forget x).erase x) ∧ ∀ h, x ∉ ((s.forget x).erase x).ring h := by
  obtain ⟨h, mem⟩ := on
  by_cases eq : h = x
  · subst eq
    obtain ⟨l, here, -⟩ := mem_ring mem
    have nil : l = [] := by simpa [here] using empty
    subst nil
    have ring : m.Ring [h] := ring_some here ▸ holds.rings.ring h
    have out : ∀ j, h ∉ (s.forget h).ring j := forget_out fun j mem' => by
      cases there : s j with
      | none => simp [there] at mem'
      | some k =>
        rw [there] at mem'
        have on_j : h ∈ s.ring j := ring_some there ▸ List.mem_cons_of_mem _ mem'
        have eq : h = j := holds.rings.disjoint mem on_j
        subst eq
        rw [Option.some.inj (there.symm.trans here)] at mem'
        cases mem'
    rw [erase_out out]
    refine ⟨⟨(holds.forget h).rings.congr_out out fun y ne => ?_,
      (holds.forget h).nonnull⟩, out⟩
    exact ring.unlink_agree (by simp) y (by simpa using ne)
  · obtain ⟨front, back, at_⟩ := List.append_of_mem mem
    have none : s x = none := by
      cases here : s x with
      | none => rfl
      | some k =>
        have own : x ∈ s.ring x := by simp [ring_some here]
        exact absurd (holds.rings.disjoint mem own) eq
    rw [State.forget, Function.update_eq_self_iff.mpr none.symm]
    have ring := holds.ring_erase at_ eq
    refine ⟨holds.replace (holds.rings.unlink at_) ring fun null => ?_, fun j => ?_⟩
    · have old := holds.nonnull h
      rw [at_] at old
      simp only [List.mem_append, List.mem_cons] at old null
      tauto
    · rw [ring]
      exact holds.rings.unlink_out at_ j

theorem Holds.spliced (holds : Holds m s) (here : s x = some (y :: l)) (on : On s p)
    (out : p ∉ s.ring x) : Holds (m.splice x p) ((s.forget x).behind p (y :: l)) ∧
      ∀ h, x ∉ ((s.forget x).behind p (y :: l)).ring h := by
  obtain ⟨h, mem⟩ := on
  have ne : h ≠ x := fun eq => out (eq ▸ mem)
  obtain ⟨front, back, at_⟩ := List.append_of_mem (mem_ring_forget mem ne)
  have source : m.Ring (x :: y :: l) := ring_some here ▸ holds.rings.ring x
  have target : m.Ring (p :: (back ++ front)) := by
    simpa using (at_ ▸ (holds.forget x).rings.ring h).rotate
  have old : ∀ z ∈ p :: (back ++ front), z ∈ (s.forget x).ring h := fun z mem' => by
    rw [at_]
    simp only [List.mem_cons, List.mem_append] at mem' ⊢
    tauto
  have apart : ∀ {j z}, z ∈ (s.forget x).ring j → z ∉ x :: y :: l := by
    intro j z mem' source
    obtain ⟨k, there, -⟩ := mem_ring mem'
    have ne : j ≠ x := fun eq => by simp [State.forget, eq] at there
    exact ne (holds.rings.disjoint (ring_forget_sub s x j mem') (ring_some here ▸ source))
  have nodes : ∀ z ∈ front ++ p :: (y :: l ++ back),
      z ∈ (s.forget x).ring h ∨ z ∈ y :: l := fun z mem' => by
    rw [at_]
    simp only [List.mem_append, List.mem_cons] at mem' ⊢
    tauto
  have ring : ((s.forget x).behind p (y :: l)).ring = _ := (holds.forget x).ring_behind at_
  refine ⟨(holds.forget x).replace ?_ ring fun null => ?_, fun j mem' => ?_⟩
  · apply (holds.forget x).rings.replace
    · have joined : (m.splice x p).Ring ((p :: (y :: l ++ back)) ++ front) := by
        simpa using target.splice source fun z mem' => apart (old z mem')
      exact joined.rotate
    · intro j neJ z mem'
      refine Links.splice_agree target source z ⟨fun mem₂ => ?_, fun mem₂ => ?_⟩
      · exact neJ ((holds.forget x).rings.disjoint mem' (old z mem₂))
      · exact apart mem' (List.mem_cons_of_mem _ mem₂)
    · exact fun z mem' => (nodes z mem').imp_right fun mem₂ j mem₃ =>
        apart mem₃ (List.mem_cons_of_mem _ mem₂)
  · rcases nodes 0 null with mem' | mem'
    · exact (holds.forget x).nonnull h mem'
    · exact holds.nonnull x (ring_some here ▸ List.mem_cons_of_mem _ mem')
  · have head : x ∈ x :: y :: l := by simp
    rw [ring] at mem'
    by_cases eq : j = h
    · subst eq
      rw [Function.update_self] at mem'
      rcases nodes x mem' with mem' | mem'
      · exact apart mem' head
      · exact (List.nodup_cons.mp source.nodup).1 mem'
    · rw [Function.update_of_ne eq] at mem'
      exact apart mem' head

theorem Holds.ehListEmpty (holds : Holds m s) (on : On s p) :
    EhList.ehListEmpty m p = true ↔ s p = some [] := by
  obtain ⟨h, mem⟩ := on
  obtain ⟨front, back, at_⟩ := List.append_of_mem mem
  rw [EhList.ehListEmpty, decide_eq_true_iff,
    Links.Ring.next_self_mid (at_ ▸ holds.rings.ring h)]
  rcases holds.split at_ with ⟨here, rfl, rfl⟩ | ⟨k, here, rfl, ne, -⟩
  · simp [here]
  · refine iff_of_false (by simp) fun empty => ne ?_
    exact holds.rings.disjoint mem (by simp [ring_some empty])

theorem Holds.ehListSplice (holds : Holds m s) (some_ : (s x).isSome) (on : On s p)
    (out : p ∉ s.ring x) : Holds (EhList.ehListSplice m x p) (specSplice s x p) := by
  obtain ⟨l, here⟩ := Option.isSome_iff_exists.mp some_
  have test := holds.ehListEmpty (p := x) ⟨x, by simp [ring_some here]⟩
  rw [EhList.ehListSplice, specSplice, here]
  cases l with
  | nil =>
    rw [if_pos (test.mpr here)]
    exact holds
  | cons y l =>
    rw [if_neg (by simp [test, here])]
    exact (holds.spliced here on out).1

theorem Holds.ehListSpliceInit (holds : Holds m s) (some_ : (s x).isSome) (on : On s p)
    (out : p ∉ s.ring x) :
    Holds (EhList.ehListSpliceInit m x p) ((specSplice s x p).head x) := by
  obtain ⟨l, here⟩ := Option.isSome_iff_exists.mp some_
  have own : x ∈ s.ring x := by simp [ring_some here]
  have test := holds.ehListEmpty (p := x) ⟨x, own⟩
  rw [EhList.ehListSpliceInit, specSplice, here]
  cases l with
  | nil =>
    rw [if_pos (test.mpr here), State.head, Function.update_eq_self_iff.mpr here.symm]
    exact holds
  | cons y l =>
    rw [if_neg (by simp [test, here])]
    obtain ⟨holds', out'⟩ := holds.spliced here on out
    exact holds'.attachHead out' fun eq => holds.nonnull x (eq ▸ own)

theorem Holds.edit {e : Edit} (holds : Holds m s) (legal : LegalEdit s e) :
    Holds (EhList.edit m e) (specEdit s e) := by
  have nonnull : ∀ {x}, On s x → x ≠ 0 := by
    rintro x ⟨h, mem⟩ rfl
    exact holds.nonnull h mem
  cases e with
  | headInit ptr =>
    have attached := (holds.forget ptr).attachHead (forget_out legal.2) legal.1
    rwa [State.head, State.forget, Function.update_idem] at attached
  | add new p =>
    obtain ⟨⟨nonnull, empty, out⟩, on, ne⟩ := legal
    exact (holds.forget new).attachBehind (forget_out out) nonnull (on.forget empty ne)
  | addTail new p =>
    obtain ⟨⟨nonnull, empty, out⟩, on, ne⟩ := legal
    exact (holds.forget new).attachBefore (forget_out out) nonnull (on.forget empty ne)
  | del x =>
    obtain ⟨holds', out⟩ := holds.detach legal.1 legal.2
    refine ⟨holds'.rings.congr_out out fun y ne => ?_, holds'.nonnull⟩
    simp [EhList.edit, ehListDel, ehListDelBetween, Links.unlink, Links.setNext, Links.setPrev,
      show y ≠ x from ne]
  | delInit x =>
    obtain ⟨holds', out⟩ := holds.detach legal.1 legal.2
    exact holds'.attachHead out (nonnull legal.1)
  | move x p =>
    obtain ⟨⟨on, empty⟩, target, ne⟩ := legal
    obtain ⟨holds', out⟩ := holds.detach on empty
    exact holds'.attachBehind out (nonnull on) ((target.forget empty ne).erase ne)
  | moveTail x p =>
    obtain ⟨⟨on, empty⟩, target, ne⟩ := legal
    obtain ⟨holds', out⟩ := holds.detach on empty
    exact holds'.attachBefore out (nonnull on) ((target.forget empty ne).erase ne)
  | splice list p => exact holds.ehListSplice legal.1 legal.2.1 legal.2.2
  | spliceInit list p => exact holds.ehListSpliceInit legal.1 legal.2.1 legal.2.2

theorem Holds.edits {es : List Edit} (holds : Holds m s) (legal : LegalEdits s es) :
    Holds (es.foldl EhList.edit m) (es.foldl specEdit s) := by
  induction es generalizing m s with
  | nil => exact holds
  | cons e es ih => exact ih (holds.edit legal.1) legal.2

end Rings

section Loops
variable {m : Memory} {s : State} {d : Dir} {h x n : ℕ} {l front back rest : List ℕ}
  {bodies : List (List Edit)}

def view (m : Memory) : Dir → Memory
  | .next => m
  | .prev => m.flip

theorem view_next (m : Memory) (x : ℕ) (d : Dir) : (view m d).next x = follow m x d := by
  cases d <;> rfl

theorem Holds.view (holds : Holds m s) (some_ : (s h).isSome) (d : Dir) :
    (EhList.view m d).Ring (h :: s.seq d h) := by
  obtain ⟨l, here⟩ := Option.isSome_iff_exists.mp some_
  have ring : m.Ring (h :: l) := ring_some here ▸ holds.rings.ring h
  rw [State.seq, here, Option.getD_some]
  cases d with
  | next => exact ring
  | prev => exact ring.flip

theorem Holds.follow_head (holds : Holds m s) (some_ : (s h).isSome) :
    follow m h d = (s.seq d h).headD h := by
  rw [← view_next]
  exact (holds.view some_ d).next_head

theorem Holds.follow_mid (holds : Holds m s) (some_ : (s h).isSome)
    (at_ : s.seq d h = front ++ x :: back) : follow m x d = back.headD h := by
  have ring := holds.view some_ d
  rw [at_] at ring
  rw [← view_next]
  exact ring.next_mid

theorem Holds.forEachFrom (holds : Holds m s) (some_ : (s h).isSome)
    (at_ : s.seq d h = front ++ rest) {fuel : ℕ} (enough : rest.length < fuel) :
    EhList.forEachFrom d h m fuel (rest.headD h) = some rest := by
  induction rest generalizing front fuel with
  | nil =>
    obtain ⟨fuel, rfl⟩ := Nat.exists_eq_succ_of_ne_zero (Nat.ne_of_gt enough)
    rw [EhList.forEachFrom]
    exact if_pos rfl
  | cons x rest ih =>
    obtain ⟨fuel, rfl⟩ := Nat.exists_eq_succ_of_ne_zero (Nat.ne_of_gt (Nat.zero_lt_of_lt enough))
    have ne : x ≠ h := fun eq => by
      have nodup := (holds.view some_ d).nodup
      rw [at_] at nodup
      exact (List.nodup_cons.mp nodup).1 (by simp [eq])
    have at' : s.seq d h = (front ++ [x]) ++ rest := by simpa using at_
    rw [EhList.forEachFrom, List.headD_cons, if_neg ne, holds.follow_mid some_ at_,
      ih at' (Nat.lt_of_succ_lt_succ enough)]
    rfl

theorem forEachSafeFrom_cons {body : List Edit} (ne : x ≠ h) :
    forEachSafeFrom d h m x n (body :: bodies) =
      let m := body.foldl edit m
      let done := forEachSafeFrom d h m n (follow m n d) bodies
      (done.1, x :: done.2) :=
  if_neg ne

theorem seq_split (holds : Holds m s) (some_ : (s h).isSome) (mem : n ∈ s.seq d h) :
    ∃ front, s.seq d h = front ++ n :: after n (s.seq d h) := by
  obtain ⟨front, back, at_⟩ := List.append_of_mem mem
  have nodup := (List.nodup_cons.mp (holds.view some_ d).nodup).2
  rw [at_] at nodup
  have out : n ∉ front := fun mem => (List.nodup_append.mp nodup).2.2 n mem n (by simp) rfl
  exact ⟨front, by rw [at_, after_split out]⟩

theorem Holds.forEachSafeFrom (holds : Holds m s) (some_ : (s h).isSome)
    (at_ : s.seq d h = front ++ rest) (legal : LegalSafe d h s rest bodies) :
    let done := EhList.forEachSafeFrom d h m (rest.headD h) (follow m (rest.headD h) d) bodies
    let spec := specSafe d h s rest bodies
    Holds done.1 spec.1 ∧ done.2 = spec.2 := by
  induction bodies generalizing m s front rest with
  | nil =>
    cases rest <;> exact ⟨holds, rfl⟩
  | cons body bodies ih =>
    cases rest with
    | nil =>
      simp only [EhList.forEachSafeFrom, List.headD_nil, if_true, specSafe]
      exact ⟨holds, trivial⟩
    | cons x rest =>
      have ne : x ≠ h := fun eq => by
        have nodup := (holds.view some_ d).nodup
        rw [at_] at nodup
        exact (List.nodup_cons.mp nodup).1 (by simp [eq])
      obtain ⟨edits, some', stays, legal'⟩ := legal
      have holds' := holds.edits edits
      -- the list behind the body, from the node that was the next one before it
      obtain ⟨front', rest', eq, same, at'⟩ : ∃ front' rest',
          (rest.head?.elim [] fun n => n :: after n ((body.foldl specEdit s).seq d h)) = rest' ∧
          rest'.headD h = rest.headD h ∧
          (body.foldl specEdit s).seq d h = front' ++ rest' := by
        cases rest with
        | nil => exact ⟨_, [], rfl, rfl, (List.append_nil _).symm⟩
        | cons n rest =>
          obtain ⟨front', split⟩ := seq_split holds' some' (stays n rfl)
          exact ⟨front', _, rfl, rfl, split⟩
      rw [eq] at legal'
      obtain ⟨final, visited⟩ := ih holds' some' at' legal'
      rw [same] at final visited
      intro done spec
      have round : done = _ := forEachSafeFrom_cons ne
      rw [List.headD_cons, holds.follow_mid some_ at_] at round
      have spec_round : spec =
          let done := specSafe d h (body.foldl specEdit s) rest' bodies
          (done.1, x :: done.2) := by
        rw [← eq]
        rfl
      rw [round, spec_round]
      exact ⟨final, congrArg (x :: ·) visited⟩

end Loops

section Runs
variable {m : Memory} {s : State} {op : Op} {ops : List Op}

theorem seq_length (s : State) (d : Dir) (h : ℕ) :
    (s.seq d h).length = ((s h).getD []).length := by
  cases d with
  | next => rfl
  | prev => exact List.length_reverse

theorem mem_seq {x : ℕ} (s : State) (d : Dir) (h : ℕ) :
    x ∈ s.seq d h ↔ x ∈ (s h).getD [] := by
  cases d with
  | next => rfl
  | prev => exact List.mem_reverse

theorem getD_some {x h : ℕ} (mem : x ∈ (s h).getD []) : (s h).isSome := by
  cases here : s h with
  | none => simp [here] at mem
  | some l => rfl

theorem Holds.step (holds : Holds m s) (legal : Legal s op) :
    Holds (EhList.step m op).1 (specStep s op).1 ∧ (EhList.step m op).2 = (specStep s op).2 := by
  cases op with
  | edit e => exact ⟨holds.edit legal, rfl⟩
  | empty p =>
    refine ⟨holds, congrArg Result.empty ?_⟩
    rw [Bool.eq_iff_iff, holds.ehListEmpty legal, decide_eq_true_iff]
  | forEach d h fuel =>
    obtain ⟨some_, enough⟩ := legal
    rw [← seq_length s d] at enough
    refine ⟨holds, congrArg Result.visited ?_⟩
    rw [ehListForEach, holds.follow_head some_]
    exact holds.forEachFrom some_ (List.nil_append _).symm enough
  | forEachContinue d x h fuel =>
    obtain ⟨mem, enough⟩ := legal
    have some_ := getD_some mem
    rw [← seq_length s d] at enough
    obtain ⟨front, at_⟩ := seq_split holds some_ ((mem_seq s d h).mpr mem)
    have at' : s.seq d h = (front ++ [x]) ++ after x (s.seq d h) := by simpa using at_
    refine ⟨holds, congrArg Result.visited ?_⟩
    rw [ehListForEachContinue, holds.follow_mid some_ at_]
    refine holds.forEachFrom some_ at' ?_
    rw [at_, List.length_append, List.length_cons] at enough
    omega
  | forEachSafe d h bodies =>
    obtain ⟨some_, legal⟩ := legal
    obtain ⟨holds', visited⟩ := holds.forEachSafeFrom some_ (List.nil_append _).symm legal
    rw [← holds.follow_head some_] at holds' visited
    exact ⟨holds', congrArg (fun l => Result.visited (some l)) visited⟩
  | forEachContinueSafe d x h bodies =>
    obtain ⟨mem, legal⟩ := legal
    have some_ := getD_some mem
    obtain ⟨front, at_⟩ := seq_split holds some_ ((mem_seq s d h).mpr mem)
    have at' : s.seq d h = (front ++ [x]) ++ after x (s.seq d h) := by simpa using at_
    obtain ⟨holds', visited⟩ := holds.forEachSafeFrom some_ at' legal
    rw [← holds.follow_mid some_ at_] at holds' visited
    exact ⟨holds', congrArg (fun l => Result.visited (some l)) visited⟩

theorem Holds.run (holds : Holds m s) (legal : LegalRun s ops) :
    Holds (EhList.run m ops).1 (specRun s ops).1 ∧ (EhList.run m ops).2 = (specRun s ops).2 := by
  induction ops generalizing m s with
  | nil => exact ⟨holds, rfl⟩
  | cons op ops ih =>
    obtain ⟨holds', result⟩ := holds.step legal.1
    obtain ⟨final, results⟩ := ih holds' legal.2
    exact ⟨final, List.cons_eq_cons.mpr ⟨result, results⟩⟩

def noLists : State := fun _ => none

theorem holds_noLists (m : Memory) : Holds m noLists where
  rings := ⟨fun _ => trivial, fun mem => absurd mem List.not_mem_nil⟩
  nonnull _ := List.not_mem_nil

/-- From any memory, the lists are their sequences after every run, and every call returned what
it returns on the sequences. -/
theorem ehList_refines (m : Memory) (ops : List Op) (legal : LegalRun noLists ops) :
    Holds (run m ops).1 (specRun noLists ops).1 ∧ (run m ops).2 = (specRun noLists ops).2 :=
  (holds_noLists m).run legal

/-- No body changes what is behind the node of its round; the nodes that the loop has passed, and
this one, may go anywhere. -/
def Behind (d : Dir) (h : Nat) (s : State) : List Nat → List (List Edit) → Prop
  | _ :: rest, body :: bodies => LegalEdits s body ∧
    (let s := body.foldl specEdit s
    (s h).isSome ∧ (∃ front, s.seq d h = front ++ rest) ∧ Behind d h s rest bodies)
  | _, _ => True

theorem Holds.behind {d : Dir} {h : ℕ} {rest : List ℕ} {bodies : List (List Edit)}
    (holds : Holds m s) (behind : Behind d h s rest bodies) : LegalSafe d h s rest bodies ∧
      specSafe d h s rest bodies =
        ((bodies.take rest.length).foldl (fun s body => body.foldl specEdit s) s,
          rest.take bodies.length) := by
  induction bodies generalizing m s rest with
  | nil => cases rest <;> exact ⟨trivial, rfl⟩
  | cons body bodies ih =>
    cases rest with
    | nil => exact ⟨trivial, rfl⟩
    | cons x rest =>
      obtain ⟨edits, some', ⟨front, at_⟩, behind⟩ := behind
      have holds' := holds.edits edits
      have goes : (rest.head?.elim [] fun n =>
          n :: after n ((body.foldl specEdit s).seq d h)) = rest := by
        cases rest with
        | nil => rfl
        | cons n rest =>
          have nodup := (List.nodup_cons.mp (holds'.view some' d).nodup).2
          rw [at_] at nodup ⊢
          have out : n ∉ front := fun mem =>
            (List.nodup_append.mp nodup).2.2 n mem n (by simp) rfl
          rw [List.head?_cons, Option.elim_some, after_split out]
      obtain ⟨legal, spec⟩ := ih holds' behind
      refine ⟨⟨edits, some', fun n first => ?_, ?_⟩, ?_⟩
      · rw [at_]
        exact List.mem_append_right _ (List.mem_of_mem_head? first)
      · rw [goes]
        exact legal
      · rw [specSafe]
        simp only [goes, spec, List.length_cons, List.take_succ_cons, List.foldl_cons]

/-- In every run, a loop that deletes nodes visits each node of its list once, in order, and does
what its bodies do. -/
theorem ehListForEachSafe_visits (m : Memory) (ops : List Op) (legal : LegalRun noLists ops)
    (d : Dir) (h : ℕ) (some_ : ((specRun noLists ops).1 h).isSome) (bodies : List (List Edit))
    (behind : Behind d h (specRun noLists ops).1 ((specRun noLists ops).1.seq d h) bodies) :
    let s := (specRun noLists ops).1
    let done := ehListForEachSafe d h (run m ops).1 bodies
    done.2 = (s.seq d h).take bodies.length ∧
      Holds done.1 ((bodies.take (s.seq d h).length).foldl
        (fun s body => body.foldl specEdit s) s) := by
  have holds := ((holds_noLists m).run legal).1
  obtain ⟨legal', spec⟩ := holds.behind behind
  obtain ⟨holds', visited⟩ := holds.step
    (show Legal _ (.forEachSafe d h bodies) from ⟨some_, legal'⟩)
  simp only [step, specStep, spec, Result.visited.injEq, Option.some.injEq] at holds' visited
  exact ⟨visited, holds'⟩

end Runs

section Examples

def threeNodes : List Op := [.edit (.headInit 1), .edit (.headInit 5), .edit (.add 3 1),
  .edit (.addTail 4 1), .edit (.addTail 2 3)]

theorem legal_threeNodes : LegalRun noLists threeNodes := by
  refine ⟨⟨by decide, fun h => ?_⟩, ⟨by decide, fun h => ?_⟩,
    ⟨⟨by decide, rfl, fun h => ?_⟩, ⟨1, by decide⟩, by decide⟩,
    ⟨⟨by decide, rfl, fun h => ?_⟩, ⟨1, by decide⟩, by decide⟩,
    ⟨⟨by decide, rfl, fun h => ?_⟩, ⟨1, by decide⟩, by decide⟩, trivial⟩
  all_goals
    by_cases first : h = 1
    · subst first
      decide
    · by_cases second : h = 5
      · subst second
        decide
      · simp [specStep, specEdit, noLists, State.head, State.forget, State.behind, State.before,
          Function.update_apply, first, second]

/-- The node 3 goes to the list behind 5, which then takes over the others; a loop deletes one of
them and moves another back. -/
def taken : List Op := threeNodes ++ [.edit (.del 3), .edit (.add 3 5), .edit (.spliceInit 1 5),
  .forEachSafe .next 5 [[.delInit 2], [.move 4 1], []], .forEach .prev 5 4, .empty 1]

theorem legal_taken : LegalRun noLists taken := by
  refine legal_threeNodes.append ⟨⟨⟨1, by decide⟩, rfl⟩,
    ⟨⟨by decide, rfl, fun h => ?_⟩, ⟨5, by decide⟩, by decide⟩,
    ⟨rfl, ⟨5, by decide⟩, by decide⟩,
    ⟨rfl, ⟨⟨⟨5, by decide⟩, rfl⟩, trivial⟩, rfl, by decide,
      ⟨⟨⟨⟨5, by decide⟩, rfl⟩, ⟨1, by decide⟩, by decide⟩, trivial⟩, rfl, by decide,
      trivial, rfl, by decide, trivial⟩,
    ⟨rfl, by decide⟩, ⟨1, by decide⟩, trivial⟩
  by_cases first : h = 1
  · subst first
    decide
  · by_cases second : h = 5
    · subst second
      decide
    · simp [threeNodes, specRun, specStep, specEdit, noLists, State.head, State.forget,
        State.behind, State.before, State.erase, Function.update_apply, first, second]

theorem ehList_refines_taken :
    (run ⟨id, id⟩ taken).2 = List.replicate 8 .void ++
      [.visited (some [2, 4, 3]), .visited (some [3]), .empty false] ∧
    (specRun noLists taken).1 1 = some [4] ∧ (specRun noLists taken).1 2 = some [] ∧
    (specRun noLists taken).1 5 = some [3] :=
  ⟨(ehList_refines ⟨id, id⟩ taken legal_taken).2.trans rfl, rfl, rfl, rfl⟩

theorem ehListForEachSafe_visits_three :
    (ehListForEachSafe .next 1 (run ⟨id, id⟩ threeNodes).1
      [[.moveTail 2 5], [.del 3], [.delInit 4]]).2 = [2, 3, 4] :=
  (ehListForEachSafe_visits ⟨id, id⟩ threeNodes legal_threeNodes .next 1 rfl
    [[.moveTail 2 5], [.del 3], [.delInit 4]]
    ⟨⟨⟨⟨⟨1, by decide⟩, rfl⟩, ⟨5, by decide⟩, by decide⟩, trivial⟩, rfl, ⟨[], rfl⟩,
      ⟨⟨⟨1, by decide⟩, rfl⟩, trivial⟩, rfl, ⟨[], rfl⟩,
      ⟨⟨⟨1, by decide⟩, rfl⟩, trivial⟩, rfl, ⟨[], rfl⟩, trivial⟩).1

end Examples

end EventHub.EhList
