import EventHub.Library.Chain
import EventHub.Llist.Lists
import Mathlib.Data.List.Nodup

/-! The lists of `eh_llist.h` as sequences of nodes, one for each head. -/

namespace EventHub.Llist
open Library

variable {H N : Type}

/-- The pointer to the last node of `l`, or to the head. -/
def tailOf (h : H) (l : List N) : Ptr H N := (l.map Ptr.node).getLastD (.head h)

/-- The pointer to the last node of `l`, or `NULL`. -/
def lastOf (H : Type) (l : List N) : Ptr H N := (l.map Ptr.node).getLastD .null

def sweep : List N → List Bool → List N
  | l, [] => l
  | [], _ :: _ => []
  | n :: l, delete :: decisions =>
    if delete then sweep l decisions else n :: sweep l decisions

section Spec
variable [DecidableEq H] [DecidableEq N]

/-- The number of nodes up to `p`. -/
def position (l : List N) : Ptr H N → Nat
  | .node n => l.idxOf n + 1
  | _ => 0

def specStep (s : H → List N) : Op H N → (H → List N) × Result H N
  | .link _ _ => (s, .void)
  | .addBatch first rest h =>
    (Function.update s h (first :: rest ++ s h), .wasEmpty (s h).isEmpty)
  | .addBatchTail first rest h =>
    (Function.update s h (s h ++ first :: rest), .wasEmpty (s h).isEmpty)
  | .add n h => (Function.update s h (n :: s h), .wasEmpty (s h).isEmpty)
  | .addTail n h => (Function.update s h (s h ++ [n]), .wasEmpty (s h).isEmpty)
  | .insert prev n h =>
    let k := position (s h) prev
    (Function.update s h ((s h).take k ++ n :: (s h).drop k), .void)
  | .push n h => (Function.update s h (n :: s h), .void)
  | .enqueue n h => (Function.update s h (s h ++ [n]), .void)
  | .pop h | .dequeue h =>
    (Function.update s h (s h).tail, .popped (((s h).map Ptr.node).headD .null))
  | .delFirstInit h => (Function.update s h (s h).tail, .void)
  | .headMoveInit old new => (Function.update (Function.update s new (s old)) old [], .void)
  | .forEachSafe h start decisions =>
    let k := position (s h) start
    (Function.update s h ((s h).take k ++ sweep ((s h).drop k) decisions), .void)

def Off (s : H → List N) (l : List N) : Prop := ∀ n ∈ l, ∀ h, n ∉ s h

structure Batch (m : Memory H N) (s : H → List N) (first : N) (rest : List N) : Prop where
  nodup : (first :: rest).Nodup
  off : Off s (first :: rest)
  linked : Path m.next (.node first) ((first :: rest).map Ptr.node)
    (m.next (.node (rest.getLastD first)))

def On (s : H → List N) (h : H) (p : Ptr H N) : Prop := p = .head h ∨ ∃ n ∈ s h, p = .node n

def Legal (m : Memory H N) (s : H → List N) : Op H N → Prop
  | .link n _ => Off s [n]
  | .addBatch first rest _ | .addBatchTail first rest _ => Batch m s first rest
  | .add n _ | .addTail n _ | .push n _ | .enqueue n _ => Off s [n]
  | .insert prev n h => Off s [n] ∧ On s h prev
  | .pop _ | .dequeue _ | .headMoveInit _ _ => True
  | .delFirstInit h => s h ≠ []
  | .forEachSafe h start _ => On s h start

end Spec

section Tail
variable {h : H} {l k : List N} {n : N}

@[simp] theorem tailOf_nil : tailOf h ([] : List N) = .head h := rfl

@[simp] theorem tailOf_snoc : tailOf h (l ++ [n]) = .node n := by simp [tailOf]

@[simp] theorem lastOf_nil : lastOf H ([] : List N) = .null := rfl

@[simp] theorem lastOf_snoc : lastOf H (l ++ [n]) = .node n := by simp [lastOf]

theorem exists_snoc (some : l ≠ []) : ∃ k n, l = k ++ [n] :=
  ⟨l.dropLast, l.getLast some, (List.dropLast_concat_getLast some).symm⟩

theorem lastOf_append (some : k ≠ []) : lastOf H (l ++ k) = lastOf H k := by
  obtain ⟨k, n, rfl⟩ := exists_snoc some
  rw [← List.append_assoc, lastOf_snoc, lastOf_snoc]

theorem lastOf_cons : lastOf H (n :: l) = .node (l.getLastD n) := by
  rw [lastOf, List.map_cons, List.getLastD_cons]
  exact List.getLastD_map

theorem lastOf_eq_tailOf (some : l ≠ []) : lastOf H l = tailOf h l := by
  obtain ⟨l, n, rfl⟩ := exists_snoc some
  rw [lastOf_snoc, tailOf_snoc]

theorem lastOf_eq_null : lastOf H l = .null ↔ l = [] := by
  constructor
  · intro null
    by_contra some
    obtain ⟨l, n, rfl⟩ := exists_snoc some
    rw [lastOf_snoc] at null
    cases null
  · rintro rfl
    rfl

theorem tailOf_mem : tailOf h l = .head h ∨ ∃ n ∈ l, tailOf h l = .node n := by
  by_cases some : l = []
  · exact .inl (by rw [some, tailOf_nil])
  · obtain ⟨l, n, rfl⟩ := exists_snoc some
    exact .inr ⟨n, by simp, tailOf_snoc⟩

theorem node_ne_tailOf (out : n ∉ l) : Ptr.node n ≠ tailOf h l := by
  intro eq
  rcases tailOf_mem (h := h) (l := l) with head | ⟨k, mem, tail⟩
  · rw [head] at eq
    cases eq
  · rw [tail] at eq
    cases eq
    exact out mem

theorem tailOf_ne_null : tailOf h l ≠ .null := by
  intro null
  rcases tailOf_mem (h := h) (l := l) with head | ⟨n, -, node⟩
  · rw [null] at head
    cases head
  · rw [null] at node
    cases node

theorem cells_nodup (nodup : l.Nodup) : (.head h :: l.map Ptr.node : List (Ptr H N)).Nodup :=
  List.nodup_cons.mpr ⟨by simp, nodup.map fun _ _ => Ptr.node.inj⟩

theorem tailOf_take [DecidableEq N] {s : H → List N} {p : Ptr H N} (on : On s h p) :
    tailOf h ((s h).take (position (s h) p)) = p := by
  rcases on with rfl | ⟨n, mem, rfl⟩
  · rfl
  · rw [position, List.take_add_one, List.getElem?_idxOf mem]
    exact tailOf_snoc

end Tail

structure Holds (m : Memory H N) (s : H → List N) : Prop where
  linked : ∀ h, Path m.next (.head h) (.head h :: (s h).map Ptr.node) .null
  nodup : ∀ h, (s h).Nodup
  apart : ∀ h h', h ≠ h' → ∀ n ∈ s h, n ∉ s h'
  last : ∀ h, s h ≠ [] → m.last h = lastOf H (s h)

/-- `eh_llist_last` is right. -/
def LastRight (m : Memory H N) (s : H → List N) : Prop := ∀ h, m.ehLlistLast h = lastOf H (s h)

section Edit
variable [DecidableEq H] {m m' : Memory H N} {s : H → List N} {h : H}
  {pre mid mid' post : List N}

theorem Holds.edit (holds : Holds m s) (at_ : s h = pre ++ (mid ++ post))
    (fresh : (pre ++ (mid' ++ post)).Nodup) (off : ∀ n ∈ mid', ∀ h' ≠ h, n ∉ s h')
    (between : Path m'.next (m'.next (tailOf h pre)) (mid'.map Ptr.node)
      ((post.map Ptr.node).headD .null))
    (same : ∀ p ≠ tailOf h pre, p ∉ mid.map Ptr.node → p ∉ mid'.map Ptr.node →
      m'.next p = m.next p)
    (last : pre ++ (mid' ++ post) ≠ [] → m'.last h = lastOf H (pre ++ (mid' ++ post)))
    (others : ∀ h' ≠ h, m'.last h' = m.last h') :
    Holds m' (Function.update s h (pre ++ (mid' ++ post))) := by
  have nodup := holds.nodup h
  rw [at_] at nodup
  have old_apart : ∀ n ∈ pre, n ∉ mid ++ post := fun n mem mem' =>
    (List.nodup_append.mp nodup).2.2 n mem n mem' rfl
  have new_apart : ∀ n ∈ pre, n ∉ mid' ++ post := fun n mem mem' =>
    (List.nodup_append.mp fresh).2.2 n mem n mem' rfl
  have old_post : ∀ n ∈ post, n ∉ mid := fun n mem mem' =>
    (List.nodup_append.mp (List.nodup_append.mp nodup).2.1).2.2 n mem' n mem rfl
  have new_post : ∀ n ∈ post, n ∉ mid' := fun n mem mem' =>
    (List.nodup_append.mp (List.nodup_append.mp fresh).2.1).2.2 n mem' n mem rfl
  have node : ∀ n, Ptr.node n ≠ tailOf h pre → n ∉ mid → n ∉ mid' →
      m'.next (.node n) = m.next (.node n) := fun n ne old new =>
    same _ ne (by simpa using old) (by simpa using new)
  have outside : ∀ n ∈ pre ++ (mid' ++ post), ∀ h' ≠ h, n ∉ s h' := by
    intro n mem h' ne
    rw [List.mem_append, List.mem_append] at mem
    rcases mem with front | new | behind
    · exact holds.apart h h' ne.symm n (by simp [at_, front])
    · exact off n new h' ne
    · exact holds.apart h h' ne.symm n (by simp [at_, behind])
  refine ⟨fun h' => ?_, fun h' => ?_, fun h₁ h₂ ne => ?_, fun h' some => ?_⟩
  · by_cases this : h' = h
    · subst this
      have path := holds.linked h'
      rw [at_, List.map_append, List.map_append] at path
      rw [Function.update_self, List.map_append, List.map_append]
      refine Path.splice_last path between (fun p mem ne => ?_) ?_ fun p mem => ?_
      · rcases List.mem_cons.mp mem with rfl | mem
        · exact same _ ne (by simp) (by simp)
        · obtain ⟨n, front, rfl⟩ := List.mem_map.mp mem
          have old := old_apart n front
          have new := new_apart n front
          rw [List.mem_append, not_or] at old new
          exact node n ne old.1 new.1
      · exact cells_nodup (List.nodup_append.mp nodup).1
      · obtain ⟨n, behind, rfl⟩ := List.mem_map.mp mem
        refine node n (node_ne_tailOf fun front => ?_) (old_post n behind) (new_post n behind)
        exact old_apart n front (List.mem_append_right mid behind)
    · rw [Function.update_of_ne this]
      refine (holds.linked h').congr fun p mem => ?_
      rcases List.mem_cons.mp mem with rfl | mem
      · refine same _ (fun eq => ?_) (by simp) (by simp)
        rcases tailOf_mem (h := h) (l := pre) with head | ⟨k, -, tail⟩
        · rw [head] at eq
          exact this (Ptr.head.inj eq)
        · rw [tail] at eq
          cases eq
      · obtain ⟨n, elsewhere, rfl⟩ := List.mem_map.mp mem
        have out := holds.apart h' h this n elsewhere
        rw [at_, List.mem_append, List.mem_append, not_or, not_or] at out
        exact node n (node_ne_tailOf out.1) out.2.1 fun new => off n new h' this elsewhere
  · by_cases this : h' = h
    · rw [this, Function.update_self]
      exact fresh
    · rw [Function.update_of_ne this]
      exact holds.nodup h'
  · intro n mem mem'
    by_cases this : h₁ = h
    · rw [this, Function.update_self] at mem
      rw [Function.update_of_ne fun eq => ne (this.trans eq.symm)] at mem'
      exact outside n mem h₂ (fun eq => ne (this.trans eq.symm)) mem'
    · rw [Function.update_of_ne this] at mem
      by_cases that : h₂ = h
      · rw [that, Function.update_self] at mem'
        exact outside n mem' h₁ this mem
      · rw [Function.update_of_ne that] at mem'
        exact holds.apart h₁ h₂ ne n mem mem'
  · by_cases this : h' = h
    · rw [this, Function.update_self] at some ⊢
      exact last some
    · rw [Function.update_of_ne this] at some ⊢
      rw [others h' this]
      exact holds.last h' some

theorem Holds.unlink {n : N} (holds : Holds m s) (at_ : s h = pre ++ n :: post)
    (next : m'.next (tailOf h pre) = (post.map Ptr.node).headD .null)
    (same : ∀ p ≠ tailOf h pre, p ≠ .node n → m'.next p = m.next p)
    (last : pre ++ post ≠ [] → m'.last h = lastOf H (pre ++ post))
    (others : ∀ h' ≠ h, m'.last h' = m.last h') :
    Holds m' (Function.update s h (pre ++ post)) := by
  have nodup := holds.nodup h
  rw [at_] at nodup
  have fresh : (pre ++ post).Nodup :=
    nodup.sublist ((List.append_sublist_append_left pre).mpr (List.sublist_cons_self n post))
  have split : s h = pre ++ ([n] ++ post) := at_
  have spliced : (pre ++ ([] ++ post)).Nodup := fresh
  exact holds.edit split spliced (fun k mem => (List.not_mem_nil mem).elim) next
    (fun p ne out _ => same p ne (by simpa using out)) last others

theorem LastRight.fill {l : List N} (right : LastRight m s) (holds : Holds m' (Function.update s h l))
    (others : ∀ h' ≠ h, m'.last h' = m.last h') (some : l ≠ []) :
    LastRight m' (Function.update s h l) := by
  intro h'
  by_cases this : h' = h
  · have filled := holds.last h
    rw [Function.update_self] at filled
    rw [this, Function.update_self]
    exact filled some
  · rw [Function.update_of_ne this]
    exact (others h' this).trans (right h')

theorem LastRight.remove_iff {l : List N} (right : LastRight m s) (holds : Holds m' (Function.update s h l))
    (others : ∀ h' ≠ h, m'.last h' = m.last h') (kept : s h = [] → m'.last h = m.last h)
    (emptied : s h ≠ [] → l = [] → m'.last h ≠ .null) :
    LastRight m' (Function.update s h l) ↔ ¬(s h ≠ [] ∧ l = []) := by
  by_cases gone : l = []
  · by_cases was : s h = []
    · refine iff_of_true (fun h' => ?_) fun both => both.1 was
      by_cases this : h' = h
      · have before := right h
        rw [was] at before
        rw [this, Function.update_self, gone]
        exact (kept was).trans before
      · rw [Function.update_of_ne this]
        exact (others h' this).trans (right h')
    · refine iff_of_false (fun right' => emptied was gone ?_) fun out => out ⟨was, gone⟩
      have now := right' h
      rw [Function.update_self, gone] at now
      exact now
  · exact iff_of_true (right.fill holds others gone) fun both => gone both.2

theorem LastRight.tail_iff (right : LastRight m s) (holds : Holds m s)
    (holds' : Holds m' (Function.update s h (s h).tail)) (same : m'.last = m.last) :
    LastRight m' (Function.update s h (s h).tail) ↔ ¬(s h ≠ [] ∧ (s h).tail = []) := by
  refine right.remove_iff holds' (fun h' _ => congrFun same h') (fun _ => congrFun same h)
    fun some _ null => ?_
  have was := holds.last h some
  rw [← congrFun same h, null] at was
  exact some (lastOf_eq_null.mp was.symm)

end Edit

section Links
variable {m : Memory H N} {s : H → List N} {h : H} {pre post rest : List N} {first : N}

theorem Holds.next_tailOf (holds : Holds m s) (at_ : s h = pre ++ post) :
    m.next (tailOf h pre) = (post.map Ptr.node).headD .null := by
  have path := holds.linked h
  rw [at_, List.map_append, ← List.cons_append] at path
  obtain ⟨p, front, behind⟩ := Path.append.mp path
  rw [← behind.head]
  exact front.last

theorem Holds.next_head (holds : Holds m s) (h : H) :
    m.next (.head h) = ((s h).map Ptr.node).headD .null :=
  holds.next_tailOf (List.nil_append (s h)).symm

theorem headD_eq_null {l : List N} : (l.map (Ptr.node (H := H))).headD .null = .null ↔ l = [] := by
  cases l <;> simp

theorem Batch.path {next : Ptr H N → Ptr H N} (batch : Batch m s first rest)
    (agree : ∀ n ∈ first :: rest, n ≠ rest.getLastD first → next (.node n) = m.next (.node n)) :
    Path next (.node first) ((first :: rest).map Ptr.node)
      (next (.node (rest.getLastD first))) := by
  obtain ⟨k, n, eq⟩ := exists_snoc (List.cons_ne_nil first rest)
  have last : n = rest.getLastD first := by
    have tail : lastOf H (first :: rest) = .node n := by rw [eq, lastOf_snoc]
    rw [lastOf_cons] at tail
    exact (Ptr.node.inj tail).symm
  have linked := batch.linked
  have nodup := batch.nodup
  rw [← last] at linked agree ⊢
  rw [eq] at nodup agree
  rw [eq, List.map_append] at linked ⊢
  refine Path.relink linked fun p mem => ?_
  obtain ⟨j, front, rfl⟩ := List.mem_map.mp mem
  refine agree j (by simp [front]) ?_
  rintro rfl
  exact (List.nodup_append.mp nodup).2.2 j front j (by simp) rfl

theorem batch_singleton {n : N} (off : Off s [n]) : Batch m s n [] :=
  ⟨by simp, off, rfl, rfl⟩

def initial (links : N → Ptr H N) : Memory H N where
  next
    | .node n => links n
    | _ => .null
  last _ := .null

theorem holds_initial (links : N → Ptr H N) : Holds (initial links) fun _ => [] :=
  ⟨fun _ => ⟨rfl, rfl⟩, fun _ => .nil, fun _ _ _ n mem => (List.not_mem_nil (a := n) mem).elim,
    fun _ some => (some rfl).elim⟩

end Links

section Operations
variable [DecidableEq H] [DecidableEq N] {m : Memory H N} {s : H → List N} {h : H}
  {pre post rest : List N} {first n : N} {p q : Ptr H N}

theorem store_eq (some_p : p ≠ .null) :
    m.store p q = some { m with next := Function.update m.next p q } := if_neg some_p

theorem load_eq (some_p : p ≠ .null) : m.load p = some (m.next p) := if_neg some_p

theorem ehLlistEmpty_congr {m' : Memory H N} (same : m'.next (.head h) = m.next (.head h)) :
    m'.ehLlistEmpty h = m.ehLlistEmpty h := by
  simp only [Memory.ehLlistEmpty, same]

theorem Holds.ehLlistEmpty (holds : Holds m s) (h : H) : m.ehLlistEmpty h = (s h).isEmpty := by
  rw [Memory.ehLlistEmpty, holds.next_head h]
  cases s h <;> rfl

variable {m' : Memory H N}

theorem Holds.front (holds : Holds m s) (batch : Batch m s first rest)
    (next : m'.next = Function.update (Function.update m.next (.node (rest.getLastD first))
      (m.next (.head h))) (.head h) (.node first))
    (last : m'.last h = if s h = [] then .node (rest.getLastD first) else m.last h)
    (others : ∀ h' ≠ h, m'.last h' = m.last h') :
    Holds m' (Function.update s h (first :: rest ++ s h)) := by
  have next_head : m'.next (.head h) = .node first := by rw [next, Function.update_self]
  have next_last : m'.next (.node (rest.getLastD first)) = ((s h).map Ptr.node).headD .null := by
    rw [next, Function.update_of_ne (by simp), Function.update_self, holds.next_head]
  have elsewhere : ∀ p ≠ .head h, p ≠ .node (rest.getLastD first) → m'.next p = m.next p := by
    intro p ne ne'
    rw [next, Function.update_of_ne ne, Function.update_of_ne ne']
  have path := batch.path fun n _ ne => elsewhere (.node n) (by simp) (by simpa using ne)
  rw [next_last, ← next_head] at path
  have split : s h = [] ++ ([] ++ s h) := rfl
  refine holds.edit split ?_ (fun n mem h' _ => batch.off n mem h') path
    (fun p ne _ out => elsewhere p ne ?_) (fun _ => ?_) others
  · rw [List.nil_append]
    exact List.nodup_append.mpr ⟨batch.nodup, holds.nodup h,
      fun n mem k mem' eq => batch.off n mem h (eq ▸ mem')⟩
  · rintro rfl
    exact out (List.mem_map_of_mem (List.getLastD_mem_cons ..))
  · rw [last, List.nil_append]
    by_cases empty : s h = []
    · rw [if_pos empty, empty, List.append_nil, lastOf_cons]
    · rw [if_neg empty, lastOf_append empty]
      exact holds.last h empty

theorem Holds.addBatch (holds : Holds m s) (batch : Batch m s first rest) (h : H) : ∃ m',
    m.ehLlistAddBatch (.node first) (.node (rest.getLastD first)) h =
        some (m', (s h).isEmpty) ∧
      Holds m' (Function.update s h (first :: rest ++ s h)) ∧
      ∀ h' ≠ h, m'.last h' = m.last h' := by
  have next_last : Function.update (Function.update m.next (.node (rest.getLastD first))
      (m.next (.head h))) (.head h) (.node first) (.node (rest.getLastD first)) =
        ((s h).map Ptr.node).headD .null := by
    rw [Function.update_of_ne (by simp), Function.update_self, holds.next_head]
  simp only [Memory.ehLlistAddBatch, store_eq, ne_eq, reduceCtorEq, not_false_eq_true,
    Option.bind_eq_bind, Option.bind_some, next_last, headD_eq_null]
  by_cases empty : s h = []
  · rw [if_pos empty, List.isEmpty_iff.mpr empty]
    refine ⟨_, rfl, holds.front batch rfl ?_ fun h' ne => ?_, fun h' ne => ?_⟩
    · rw [if_pos empty]
      exact Function.update_self ..
    · exact Function.update_of_ne ne ..
    · exact Function.update_of_ne ne ..
  · rw [if_neg empty, List.isEmpty_eq_false_iff.mpr empty]
    exact ⟨_, rfl, holds.front batch rfl (if_neg empty).symm fun _ _ => rfl, fun _ _ => rfl⟩

theorem Holds.behind (holds : Holds m s) (batch : Batch m s first rest)
    (next : m'.next = Function.update (Function.update m.next (.node (rest.getLastD first)) .null)
      (tailOf h (s h)) (.node first))
    (last : m'.last h = .node (rest.getLastD first))
    (others : ∀ h' ≠ h, m'.last h' = m.last h') :
    Holds m' (Function.update s h (s h ++ first :: rest)) := by
  have in_batch : rest.getLastD first ∈ first :: rest := List.getLastD_mem_cons ..
  have not_tail : ∀ n ∈ first :: rest, Ptr.node n ≠ tailOf h (s h) := fun n mem =>
    node_ne_tailOf (batch.off n mem h)
  have next_tail : m'.next (tailOf h (s h)) = .node first := by rw [next, Function.update_self]
  have next_last : m'.next (.node (rest.getLastD first)) = .null := by
    rw [next, Function.update_of_ne (not_tail _ in_batch), Function.update_self]
  have inside : ∀ n ∈ first :: rest, n ≠ rest.getLastD first →
      m'.next (.node n) = m.next (.node n) := by
    intro n mem ne
    rw [next, Function.update_of_ne (not_tail n mem), Function.update_of_ne (by simpa using ne)]
  have path := batch.path inside
  rw [next_last, ← next_tail] at path
  have split : s h = s h ++ ([] ++ []) := by simp
  have same := holds.edit split ?_ (fun n mem h' _ => batch.off n mem h') path
    (fun p ne _ out => ?_) (fun _ => ?_) others
  · rwa [List.append_nil] at same
  · rw [List.append_nil]
    exact List.nodup_append.mpr ⟨holds.nodup h, batch.nodup,
      fun n mem k mem' eq => batch.off k mem' h (eq ▸ mem)⟩
  · rw [next, Function.update_of_ne ne, Function.update_of_ne]
    rintro rfl
    exact out (List.mem_map_of_mem in_batch)
  · rw [last, List.append_nil, lastOf_append (List.cons_ne_nil _ _), lastOf_cons]

theorem Holds.addBatchTail (holds : Holds m s) (batch : Batch m s first rest) (h : H) : ∃ m',
    m.ehLlistAddBatchTail (.node first) (.node (rest.getLastD first)) h =
        some (m', (s h).isEmpty) ∧
      Holds m' (Function.update s h (s h ++ first :: rest)) ∧
      ∀ h' ≠ h, m'.last h' = m.last h' := by
  have still : Memory.ehLlistEmpty
      ⟨Function.update m.next (.node (rest.getLastD first)) .null, m.last⟩ h = (s h).isEmpty := by
    rw [← holds.ehLlistEmpty]
    refine ehLlistEmpty_congr ?_
    change Function.update m.next (.node (rest.getLastD first)) .null (.head h) = _
    rw [Function.update_of_ne (by simp)]
  simp only [Memory.ehLlistAddBatchTail, store_eq, ne_eq, reduceCtorEq, not_false_eq_true,
    Option.bind_eq_bind, Option.bind_some, still]
  by_cases empty : s h = []
  · rw [List.isEmpty_iff.mpr empty, if_pos rfl]
    refine ⟨_, rfl, holds.behind batch ?_ (Function.update_self ..) fun h' ne => ?_,
      fun h' ne => ?_⟩
    · rw [empty, tailOf_nil]
      rfl
    · exact Function.update_of_ne ne ..
    · exact Function.update_of_ne ne ..
  · have tail : m.last h = tailOf h (s h) := by rw [holds.last h empty, lastOf_eq_tailOf empty]
    rw [List.isEmpty_eq_false_iff.mpr empty, if_neg (by decide), tail, store_eq tailOf_ne_null,
      Option.bind_some]
    refine ⟨_, rfl, holds.behind batch rfl (Function.update_self ..) fun h' ne => ?_,
      fun h' ne => ?_⟩
    · exact Function.update_of_ne ne ..
    · exact Function.update_of_ne ne ..

theorem Holds.insert (holds : Holds m s) (off : Off s [n]) (at_ : s h = pre ++ post) : ∃ m',
    m.ehLlistInsert (tailOf h pre) (.node n) h = some m' ∧
      Holds m' (Function.update s h (pre ++ n :: post)) ∧ ∀ h' ≠ h, m'.last h' = m.last h' := by
  have not_tail : Ptr.node n ≠ tailOf h pre :=
    node_ne_tailOf fun mem => off n (by simp) h (by simp [at_, mem])
  have fresh : (pre ++ ([n] ++ post)).Nodup := by
    rw [List.singleton_append, List.nodup_middle, ← at_, List.nodup_cons]
    exact ⟨off n (by simp) h, holds.nodup h⟩
  obtain ⟨next, links⟩ : ∃ next, next = Function.update (Function.update m.next (.node n)
    (m.next (tailOf h pre))) (tailOf h pre) (.node n) := ⟨_, rfl⟩
  have next_tail : next (tailOf h pre) = .node n := by rw [links, Function.update_self]
  have next_node : next (.node n) = (post.map Ptr.node).headD .null := by
    rw [← holds.next_tailOf at_, links, Function.update_of_ne not_tail, Function.update_self]
  have edit : ∀ last : H → Ptr H N,
      (last h = lastOf H (pre ++ ([n] ++ post))) → (∀ h' ≠ h, last h' = m.last h') →
      Holds ⟨next, last⟩ (Function.update s h (pre ++ n :: post)) := by
    intro last right others
    have split : s h = pre ++ ([] ++ post) := at_
    refine holds.edit split fresh (fun k mem h' _ => ?_) ⟨next_tail, next_node⟩
      (fun p ne _ out => ?_) (fun _ => right) others
    · rw [List.mem_singleton.mp mem]
      exact off n (by simp) h'
    · change next p = m.next p
      rw [links, Function.update_of_ne ne, Function.update_of_ne (by simpa using out)]
  simp only [Memory.ehLlistInsert, load_eq tailOf_ne_null, store_eq tailOf_ne_null, store_eq, ne_eq,
    reduceCtorEq, not_false_eq_true, Option.bind_eq_bind, Option.bind_some, ← links, next_node,
    headD_eq_null]
  by_cases at_end : post = []
  · rw [if_pos at_end]
    refine ⟨_, rfl, edit _ ?_ fun h' ne => Function.update_of_ne ne .., fun h' ne => ?_⟩
    · rw [at_end, Function.update_self, List.append_nil, lastOf_snoc]
    · exact Function.update_of_ne ne ..
  · rw [if_neg at_end]
    refine ⟨_, rfl, edit _ ?_ fun _ _ => rfl, fun _ _ => rfl⟩
    rw [holds.last h (by simp [at_, at_end]), at_, lastOf_append at_end, ← List.append_assoc,
      lastOf_append at_end]

theorem Holds.delInit (holds : Holds m s) (at_ : s h = n :: post) : ∃ m',
    m.ehLlistDelInit (.head h) (.node n) = some m' ∧ Holds m' (Function.update s h post) ∧
      m'.last = m.last := by
  have behind : m.next (.node n) = (post.map Ptr.node).headD .null :=
    holds.next_tailOf (show s h = [n] ++ post from at_)
  simp only [Memory.ehLlistDelInit, Memory.ehLlistDel, Memory.ehLlistNodeInit, load_eq, store_eq,
    ne_eq, reduceCtorEq, not_false_eq_true, Option.bind_eq_bind, Option.bind_some]
  have front : s h = [] ++ n :: post := at_
  refine ⟨_, rfl, holds.unlink front ?_ (fun p ne ne' => ?_) (fun some => ?_) fun _ _ => rfl, rfl⟩
  · rw [← behind]
    change Function.update (Function.update m.next (.head h) _) (.node n) (.node n) (.head h) = _
    rw [Function.update_of_ne (by simp), Function.update_self]
  · exact (Function.update_of_ne ne' ..).trans (Function.update_of_ne ne ..)
  · rw [holds.last h (by simp [at_]), at_]
    exact lastOf_append (l := [n]) some

theorem Holds.pop (holds : Holds m s) (h : H) : ∃ m',
    m.ehLlistPop h = some (m', ((s h).map Ptr.node).headD .null) ∧
      Holds m' (Function.update s h (s h).tail) ∧ m'.last = m.last := by
  rw [Memory.ehLlistPop, holds.next_head h]
  cases at_ : s h with
  | nil =>
    refine ⟨m, rfl, ?_, rfl⟩
    rwa [List.tail_nil, ← at_, Function.update_eq_self]
  | cons n post =>
    obtain ⟨m', run, holds', same⟩ := holds.delInit at_
    refine ⟨m', ?_, holds', same⟩
    rw [List.map_cons, List.headD_cons, if_neg (by simp), run]
    rfl

theorem Holds.delNode (holds : Holds m s) (at_ : s h = pre ++ n :: post) : ∃ m',
    m.ehLlistDelNodeInForEachSafe h (tailOf h pre) ((post.map Ptr.node).headD .null) = some m' ∧
      Holds m' (Function.update s h (pre ++ post)) ∧
      m'.next (tailOf h pre) = (post.map Ptr.node).headD .null ∧
      (∀ h' ≠ h, m'.last h' = m.last h') ∧ (pre ++ post = [] → m'.last h ≠ .null) := by
  simp only [Memory.ehLlistDelNodeInForEachSafe, store_eq tailOf_ne_null, Option.bind_eq_bind,
    Option.bind_some, headD_eq_null]
  by_cases at_end : post = []
  · rw [if_pos at_end]
    have last : Function.update m.last h (tailOf h pre) h = tailOf h pre := Function.update_self ..
    refine ⟨_, rfl, holds.unlink at_ (Function.update_self ..)
      (fun p ne _ => Function.update_of_ne ne ..) (fun some => last.trans ?_)
      fun h' ne => Function.update_of_ne ne .., Function.update_self ..,
      fun h' ne => Function.update_of_ne ne .., fun _ null => tailOf_ne_null (last.symm.trans null)⟩
    rw [at_end, List.append_nil] at some ⊢
    exact (lastOf_eq_tailOf some).symm
  · rw [if_neg at_end]
    refine ⟨_, rfl, holds.unlink at_ (Function.update_self ..)
      (fun p ne _ => Function.update_of_ne ne ..) (fun _ => ?_) fun _ _ => rfl,
      Function.update_self .., fun _ _ => rfl,
      fun none => absurd (List.append_eq_nil_iff.mp none).2 at_end⟩
    rw [holds.last h (by simp [at_]), at_, lastOf_append (List.cons_ne_nil _ _),
      lastOf_append at_end]
    exact lastOf_append (l := [n]) at_end

theorem Holds.forEachSafe (holds : Holds m s) (at_ : s h = pre ++ post) (decisions : List Bool) :
    ∃ m', m.ehLlistForEachSafe h (tailOf h pre) ((post.map Ptr.node).headD .null) decisions =
        some m' ∧
      Holds m' (Function.update s h (pre ++ sweep post decisions)) ∧
      (∀ h' ≠ h, m'.last h' = m.last h') ∧
      (pre ++ post = [] → m'.last h = m.last h) ∧
      (pre ++ post ≠ [] → pre ++ sweep post decisions = [] → m'.last h ≠ .null) := by
  induction decisions generalizing m s pre post with
  | nil =>
    rw [sweep]
    refine ⟨m, rfl, ?_, fun _ _ => rfl, fun _ => rfl, fun some none => (some none).elim⟩
    rwa [← at_, Function.update_eq_self]
  | cons delete decisions ih =>
    cases post with
    | nil =>
      refine ⟨m, rfl, ?_, fun _ _ => rfl, fun _ => rfl, fun some none => (some none).elim⟩
      rwa [sweep, ← at_, Function.update_eq_self]
    | cons n post =>
      have at_snoc : s h = (pre ++ [n]) ++ post := by rw [at_, List.append_assoc]; rfl
      have behind : m.next (.node n) = (post.map Ptr.node).headD .null := by
        rw [← holds.next_tailOf at_snoc, tailOf_snoc]
      rw [Memory.ehLlistForEachSafe, List.map_cons, List.headD_cons, if_neg (by simp),
        load_eq (by simp), behind]
      cases delete with
      | true =>
        obtain ⟨m₁, del, holds₁, link, others, emptied⟩ := holds.delNode at_
        obtain ⟨m', run, holds', others', kept, emptied'⟩ :=
          ih holds₁ (Function.update_self h (pre ++ post) s)
        refine ⟨m', ?_, ?_, fun h' ne => (others' h' ne).trans (others h' ne), ?_, ?_⟩
        · simp only [Option.bind_eq_bind, Option.bind_some, if_true, del,
            load_eq tailOf_ne_null, link]
          exact run
        · rw [sweep, if_pos rfl]
          rwa [Function.update_idem] at holds'
        · intro none
          simp at none
        · intro _ none
          rw [sweep, if_pos rfl] at none
          by_cases gone : pre ++ post = []
          · rw [kept gone]
            exact emptied gone
          · exact emptied' gone none
      | false =>
        obtain ⟨m', run, holds', others, -, -⟩ := ih holds at_snoc
        have ne : Ptr.node n ≠ (post.map (Ptr.node (H := H))).headD .null := by
          have nodup := holds.nodup h
          rw [at_, List.nodup_append, List.nodup_cons] at nodup
          cases post with
          | nil => simp
          | cons k post =>
            rw [List.map_cons, List.headD_cons, Ne, Ptr.node.injEq]
            exact fun eq => nodup.2.1.1 (by simp [eq])
        rw [tailOf_snoc] at run
        refine ⟨m', ?_, ?_, others, fun none => ?_, fun _ none => ?_⟩
        · simp only [Option.bind_eq_bind, Option.bind_some, Bool.false_eq_true, if_false,
            load_eq tailOf_ne_null, holds.next_tailOf at_, List.map_cons, List.headD_cons, if_neg ne]
          exact run
        · rw [sweep, if_neg (by decide)]
          rwa [List.append_assoc] at holds'
        · simp at none
        · rw [sweep, if_neg (by decide)] at none
          simp at none

theorem Holds.headMoveInit (holds : Holds m s) (old new : H) : ∃ m',
    m.ehLlistHeadMoveInit old new = some m' ∧
      Holds m' (Function.update (Function.update s new (s old)) old []) ∧
      m'.last = Function.update (Function.update m.last new (m.last old)) old .null := by
  simp only [Memory.ehLlistHeadMoveInit, store_eq, ne_eq, reduceCtorEq, not_false_eq_true,
    Option.bind_eq_bind, Option.bind_some]
  -- the old list is empty, and every other list is one of those before
  obtain ⟨next, links⟩ : ∃ next, next = Function.update (Function.update m.next (.head new)
    (m.next (.head old))) (.head old) .null := ⟨_, rfl⟩
  obtain ⟨last, lasts⟩ : ∃ last, last = Function.update (Function.update m.last new (m.last old))
    old .null := ⟨_, rfl⟩
  obtain ⟨s', lists⟩ : ∃ s', s' = Function.update (Function.update s new (s old)) old [] :=
    ⟨_, rfl⟩
  have nodes : ∀ n, next (.node n) = m.next (.node n) := fun n => by
    rw [links, Function.update_of_ne (by simp), Function.update_of_ne (by simp)]
  have moved : ∀ h, h = old ∧ s' h = [] ∧ next (.head h) = .null ∨
      h ≠ old ∧ ∃ g, g = (if h = new then old else h) ∧ s' h = s g ∧
        next (.head h) = m.next (.head g) ∧ last h = m.last g := by
    intro h
    by_cases this : h = old
    · refine .inl ⟨this, ?_, ?_⟩
      · rw [lists, this, Function.update_self]
      · rw [links, this, Function.update_self]
    · refine .inr ⟨this, _, rfl, ?_⟩
      rw [lists, links, lasts]
      by_cases that : h = new
      · subst that
        simp [this]
      · simp [this, that]
  refine ⟨⟨next, last⟩, ?_, ?_, lasts⟩
  · rw [links, lasts]
    rfl
  · rw [← lists]
    refine ⟨fun h => ?_, fun h => ?_, fun h₁ h₂ ne n mem mem' => ?_, fun h some => ?_⟩
    · refine ⟨rfl, ?_⟩
      rcases moved h with ⟨-, empty, null⟩ | ⟨-, g, -, list, link, -⟩
      · rw [empty]
        exact null
      · rw [list]
        change Path next (next (.head h)) _ _
        rw [link]
        refine (holds.linked g).2.congr fun p mem => ?_
        obtain ⟨n, -, rfl⟩ := List.mem_map.mp mem
        exact nodes n
    · rcases moved h with ⟨-, empty, -⟩ | ⟨-, g, -, list, -⟩
      · rw [empty]
        exact .nil
      · rw [list]
        exact holds.nodup g
    · rcases moved h₁ with ⟨-, empty, -⟩ | ⟨ne₁, g₁, eq₁, list₁, -⟩
      · simp [empty] at mem
      · rcases moved h₂ with ⟨-, empty, -⟩ | ⟨ne₂, g₂, eq₂, list₂, -⟩
        · simp [empty] at mem'
        · rw [list₁] at mem
          rw [list₂] at mem'
          exact holds.apart g₁ g₂ (by grind) n mem mem'
    · rcases moved h with ⟨-, empty, -⟩ | ⟨-, g, -, list, -, same⟩
      · exact (some empty).elim
      · rw [list] at some ⊢
        exact same.trans (holds.last g some)

theorem Holds.link (holds : Holds m s) (off : Off s [n]) (p : Ptr H N) : ∃ m',
    m.store (.node n) p = some m' ∧ Holds m' s ∧ m'.last = m.last := by
  rw [store_eq (by simp)]
  refine ⟨_, rfl, ⟨fun h => (holds.linked h).congr fun q mem => ?_, holds.nodup, holds.apart,
    holds.last⟩, rfl⟩
  refine Function.update_of_ne ?_ ..
  rintro rfl
  exact off n (by simp) h (by simpa using mem)

end Operations

/-! Runs from empty lists. -/

section Runs
variable [DecidableEq H] [DecidableEq N]

/-- `eh_llist_pop`, `eh_llist_dequeue`, `eh_llist_del_first_init` or a traversal takes the last
nodes of a list. -/
def Empties (s : H → List N) (op : Op H N) : Prop :=
  match op with
  | .pop h | .dequeue h | .delFirstInit h | .forEachSafe h _ _ =>
    s h ≠ [] ∧ (specStep s op).1 h = []
  | _ => False

/-- From `first` on, the nodes are those of the sequence, and `eh_llist_empty` knows. -/
def Exact (m : Memory H N) (s : H → List N) : Prop :=
  ∀ h, Path m.next (m.next (.head h)) ((s h).map Ptr.node) .null ∧
    (m.ehLlistEmpty h = true ↔ s h = [])

def LegalRun : Memory H N → (H → List N) → List (Op H N) → Prop
  | _, _, [] => True
  | m, s, op :: ops => Legal m s op ∧
    ∀ next result, m.step op = some (next, result) → LegalRun next (specStep s op).1 ops

/-- Every step does what it is for, and `good` holds of every state. -/
def Along (good : Memory H N → (H → List N) → Prop) :
    Memory H N → (H → List N) → List (Op H N) → Prop
  | m, s, [] => good m s
  | m, s, op :: ops => good m s ∧ ∃ next, m.step op = some (next, (specStep s op).2) ∧
    Along good next (specStep s op).1 ops

def NeverEmptied : (H → List N) → List (Op H N) → Prop
  | _, [] => True
  | s, op :: ops => ¬Empties s op ∧ NeverEmptied (specStep s op).1 ops

variable {m m' : Memory H N} {s : H → List N} {op : Op H N} {ops : List (Op H N)}

theorem Holds.exact (holds : Holds m s) : Exact m s := by
  intro h
  have path := (holds.linked h).2
  refine ⟨path, ?_⟩
  rw [holds.ehLlistEmpty, List.isEmpty_iff]

theorem Holds.step (holds : Holds m s) (legal : Legal m s op) : ∃ m',
    m.step op = some (m', (specStep s op).2) ∧ Holds m' (specStep s op).1 ∧
      (LastRight m s → (LastRight m' (specStep s op).1 ↔ ¬Empties s op)) := by
  cases op with
  | link n p =>
    obtain ⟨m', run, holds', same⟩ := holds.link legal p
    refine ⟨m', ?_, holds', fun right => iff_of_true (fun h => ?_) id⟩
    · rw [Memory.step, run]
      rfl
    · exact (congrFun same h).trans (right h)
  | addBatch first rest h =>
    obtain ⟨m', run, holds', others⟩ := holds.addBatch legal h
    refine ⟨m', ?_, holds', fun right => iff_of_true (right.fill holds' others (by simp)) id⟩
    rw [Memory.step, run]
    rfl
  | addBatchTail first rest h =>
    obtain ⟨m', run, holds', others⟩ := holds.addBatchTail legal h
    refine ⟨m', ?_, holds', fun right => iff_of_true (right.fill holds' others (by simp)) id⟩
    rw [Memory.step, run]
    rfl
  | add n h =>
    obtain ⟨m', run, holds', others⟩ := holds.addBatch (batch_singleton legal) h
    refine ⟨m', ?_, holds', fun right => iff_of_true (right.fill holds' others (by simp)) id⟩
    rw [Memory.step, Memory.ehLlistAdd]
    exact congrArg (Option.map _) run
  | addTail n h =>
    obtain ⟨m', run, holds', others⟩ := holds.addBatchTail (batch_singleton legal) h
    refine ⟨m', ?_, holds', fun right => iff_of_true (right.fill holds' others (by simp)) id⟩
    rw [Memory.step, Memory.ehLlistAddTail]
    exact congrArg (Option.map _) run
  | push n h =>
    obtain ⟨m', run, holds', others⟩ := holds.addBatch (batch_singleton legal) h
    refine ⟨m', ?_, holds', fun right => iff_of_true (right.fill holds' others (by simp)) id⟩
    rw [Memory.step, Memory.ehLlistPush, Memory.ehLlistAdd, Option.map_map]
    exact congrArg (Option.map _) run
  | enqueue n h =>
    obtain ⟨m', run, holds', others⟩ := holds.addBatchTail (batch_singleton legal) h
    refine ⟨m', ?_, holds', fun right => iff_of_true (right.fill holds' others (by simp)) id⟩
    rw [Memory.step, Memory.ehLlistEnqueue, Memory.ehLlistAddTail, Option.map_map]
    exact congrArg (Option.map _) run
  | insert prev n h =>
    obtain ⟨m', run, holds', others⟩ :=
      holds.insert legal.1 (List.take_append_drop (position (s h) prev) (s h)).symm
    rw [tailOf_take legal.2] at run
    refine ⟨m', ?_, holds', fun right => iff_of_true (right.fill holds' others (by simp)) id⟩
    rw [Memory.step, run]
    rfl
  | pop h =>
    obtain ⟨m', run, holds', same⟩ := holds.pop h
    refine ⟨m', ?_, holds', fun right => ?_⟩
    · rw [Memory.step, run]
      rfl
    · rw [Empties, specStep]
      dsimp only
      rw [Function.update_self]
      exact right.tail_iff holds holds' same
  | dequeue h =>
    obtain ⟨m', run, holds', same⟩ := holds.pop h
    refine ⟨m', ?_, holds', fun right => ?_⟩
    · rw [Memory.step, Memory.ehLlistDequeue, run]
      rfl
    · rw [Empties, specStep]
      dsimp only
      rw [Function.update_self]
      exact right.tail_iff holds holds' same
  | delFirstInit h =>
    obtain ⟨n, post, at_⟩ := List.exists_cons_of_ne_nil legal
    obtain ⟨m', run, holds', same⟩ := holds.delInit at_
    have tail : (s h).tail = post := by rw [at_, List.tail_cons]
    rw [← tail] at holds'
    refine ⟨m', ?_, holds', fun right => ?_⟩
    · rw [Memory.step, Memory.ehLlistDelFirstInit, holds.next_head h, at_, List.map_cons,
        List.headD_cons, run]
      rfl
    · rw [Empties, specStep]
      dsimp only
      rw [Function.update_self]
      exact right.tail_iff holds holds' same
  | headMoveInit old new =>
    obtain ⟨m', run, holds', last⟩ := holds.headMoveInit old new
    refine ⟨m', ?_, holds', fun right => iff_of_true (fun h => ?_) id⟩
    · rw [Memory.step, run]
      rfl
    · have was_old := right old
      have was := right h
      unfold Memory.ehLlistLast at was_old was ⊢
      rw [last, specStep]
      by_cases from_ : h = old
      · simp [from_]
      · by_cases gets : h = new
        · simpa [gets, show new ≠ old from gets ▸ from_] using was_old
        · simpa [from_, gets] using was
  | forEachSafe h start decisions =>
    have at_ := (List.take_append_drop (position (s h) start) (s h)).symm
    obtain ⟨m', run, holds', others, kept, emptied⟩ := holds.forEachSafe at_ decisions
    have pos := holds.next_tailOf at_
    rw [← at_] at kept emptied
    rw [tailOf_take legal] at run pos
    refine ⟨m', ?_, holds', fun right => ?_⟩
    · have some_start : start ≠ .null := by
        rw [← tailOf_take legal]
        exact tailOf_ne_null
      rw [Memory.step, load_eq some_start, pos]
      simp only [Option.bind_eq_bind, Option.bind_some, run]
      rfl
    · rw [Empties, specStep]
      dsimp only
      rw [Function.update_self]
      exact right.remove_iff holds' others kept emptied

theorem Holds.along (holds : Holds m s) (legal : LegalRun m s ops) : Along Exact m s ops := by
  induction ops generalizing m s with
  | nil => exact holds.exact
  | cons op ops ih =>
    obtain ⟨next, run, holds', -⟩ := holds.step legal.1
    exact ⟨holds.exact, next, run, ih holds' (legal.2 next _ run)⟩

theorem Holds.along_iff (holds : Holds m s) (right : LastRight m s) (legal : LegalRun m s ops) :
    Along (fun m s => Exact m s ∧ LastRight m s) m s ops ↔ NeverEmptied s ops := by
  induction ops generalizing m s with
  | nil => exact iff_of_true ⟨holds.exact, right⟩ trivial
  | cons op ops ih =>
    obtain ⟨next, run, holds', last⟩ := holds.step legal.1
    have here := last right
    constructor
    · rintro ⟨-, next', run', along⟩
      obtain ⟨rfl, -⟩ := Prod.mk.inj (Option.some.inj (run'.symm.trans run))
      have right' : LastRight next' (specStep s op).1 := by
        cases ops with
        | nil => exact along.2
        | cons op' ops => exact along.1.2
      exact ⟨here.mp right', (ih holds' right' (legal.2 next' _ run)).mp along⟩
    · rintro ⟨kept, never⟩
      have right' := here.mpr kept
      exact ⟨⟨holds.exact, right⟩, next, run,
        (ih holds' right' (legal.2 next _ run)).mpr never⟩

/-- In every run the lists are their sequences, and the pointers to the last nodes are right all
along exactly where no list is emptied by taking its last nodes. -/
theorem ehLlist_refines_iff (links : N → Ptr H N) (ops : List (Op H N))
    (legal : LegalRun (initial links) (fun _ => []) ops) :
    Along Exact (initial links) (fun _ => []) ops ∧
      (Along (fun m s => Exact m s ∧ LastRight m s) (initial links) (fun _ => []) ops ↔
        NeverEmptied (fun _ => []) ops) :=
  have holds := holds_initial links
  ⟨holds.along legal, holds.along_iff (fun _ => rfl) legal⟩

end Runs

section Examples

theorem off_unit {s : Unit → List Nat} {n : Nat} (out : n ∉ s ()) : Off s [n] :=
  fun _ mem _ => List.mem_singleton.mp mem ▸ out

theorem ehLlist_refines_iff_three :
    Along (fun m s => Exact m s ∧ LastRight m s) (initial fun _ => .null) (fun _ : Unit => [])
      [.push 0 (), .enqueue 1 (), .pop ()] :=
  (ehLlist_refines_iff (fun _ => .null) [.push 0 (), .enqueue 1 (), .pop ()]
    ⟨off_unit (by decide), fun _ _ _ => ⟨off_unit (by decide), fun _ _ _ =>
      ⟨trivial, fun _ _ _ => trivial⟩⟩⟩).2.mpr
    ⟨id, id, fun emptied => absurd emptied.2 (by decide), trivial⟩

/-- The node that is pushed and popped stays the last one of an empty list. -/
theorem ehLlistLast_stale : ∃ m m' : Memory Unit Nat,
    (initial fun _ => .null).step (.push 0 ()) = some (m, .void) ∧
      m.step (.pop ()) = some (m', .popped (.node 0)) ∧
      m'.ehLlistEmpty () = true ∧ m'.ehLlistLast () = .node 0 ∧
      ¬LastRight m' (fun _ => []) :=
  ⟨_, _, rfl, rfl, rfl, rfl, fun right => absurd (right ()) (by decide)⟩

end Examples

end EventHub.Llist
