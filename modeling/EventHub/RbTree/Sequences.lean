import EventHub.RbTree.Removing

/-! Any sequence of insertions and deletions. The linked nodes are listed in the order of
their insertion. -/

namespace EventHub.RbTree

/-- `cmp` orders the nodes, some of them alike. -/
structure TotalPreorder (cmp : ℕ → ℕ → Int) : Prop where
  flip : ∀ a b, cmp a b < 0 ↔ 0 < cmp b a
  trans : ∀ a b c, cmp a b ≤ 0 → cmp b c ≤ 0 → cmp a c ≤ 0

def Consistent (cmp : ℕ → ℕ → Int) (linked : List ℕ) (key : ℕ → Int) : Prop :=
  ∀ a ∈ linked, ∀ b ∈ linked, cmp a b ≤ 0 →
    (0 < key b → 0 < key a) ∧ (key a < 0 → key b < 0)

def Before (cmp : ℕ → ℕ → Int) (linked : List ℕ) (a b : ℕ) : Prop :=
  cmp a b < 0 ∨ cmp a b = 0 ∧ [a, b].Sublist linked

/-- The calls, and what other code does meanwhile to nodes that are not linked: their
memory may change, and with their keys what `cmp` says of them. -/
inductive Op
  | add (x : ℕ)
  | findAdd (x : ℕ)
  | findNewAdd (key : ℕ → Int) (newNode : ℕ)
  | del (x : ℕ)
  | write (x : ℕ) (n : RbNode)
  | rekey (cmp : ℕ → ℕ → Int)

def exec (fuel : ℕ) (tree : RbRoot) : Op → Option (RbRoot × ℕ)
  | .add x => tree.ehRbAdd fuel x
  | .findAdd x => tree.ehRbFindAdd fuel x
  | .findNewAdd key newNode => tree.ehRbFindNewAdd fuel key newNode
  | .del x => tree.ehRbDel fuel x
  | .write x n => some (⟨tree.write x n, tree.rbLeftmost, tree.cmp⟩, 0)
  | .rekey cmp => some (⟨tree.toRbMem, tree.rbLeftmost, cmp⟩, 0)

/-- What the callers see to: a node that goes in is not linked, one that goes out is; a
new node has the key that was looked for. -/
def Allowed (cmp : ℕ → ℕ → Int) (linked : List ℕ) : Op → Prop
  | .add x => x ≠ 0 ∧ x ∉ linked
  | .findAdd x => x ≠ 0 ∧ x ∉ linked
  | .findNewAdd key newNode => Consistent cmp linked key ∧
      ((∀ y ∈ linked, key y ≠ 0) → newNode ≠ 0 →
        newNode ∉ linked ∧ ∀ y ∈ linked, turnOf (key y) = turnOf (cmp newNode y))
  | .del x => x ∈ linked
  | .write x _ => x ≠ 0 ∧ x ∉ linked
  | .rekey cmp' => TotalPreorder cmp' ∧
      ∀ a ∈ linked, ∀ b ∈ linked, turnOf (cmp' a b) = turnOf (cmp a b)

def after (cmp : ℕ → ℕ → Int) (linked : List ℕ) : Op → List ℕ
  | .add x => linked ++ [x]
  | .findAdd x => if ∃ y ∈ linked, cmp x y = 0 then linked else linked ++ [x]
  | .findNewAdd key newNode =>
      if (∃ y ∈ linked, key y = 0) ∨ newNode = 0 then linked else linked ++ [newNode]
  | .del x => linked.erase x
  | .write .. => linked
  | .rekey _ => linked

def Returns (tree : RbRoot) (linked : List ℕ) (tree' : RbRoot) (ret : ℕ) : Op → Prop
  | .add x => ret = if ∀ y ∈ linked, tree.cmp x y < 0 then x else 0
  | .findAdd x =>
      if ∃ y ∈ linked, tree.cmp x y = 0
      then tree' = tree ∧ ret ∈ linked ∧ tree.cmp x ret = 0 else ret = x
  | .findNewAdd key newNode =>
      if ∃ y ∈ linked, key y = 0 then tree' = tree ∧ ret ∈ linked ∧ key ret = 0
      else ret = newNode ∧ (newNode = 0 → tree' = tree)
  | .del x => ret = if tree.rbLeftmost = x then tree'.rbLeftmost else 0
  | .write .. => True
  | .rekey _ => True

/-- The roots that sequences of operations lead to, with the nodes linked then. A call has
enough rounds for its loops. -/
inductive Runs : RbRoot → List ℕ → Prop
  | init (node : ℕ → RbNode) {cmp : ℕ → ℕ → Int} (order : TotalPreorder cmp) :
      Runs (.rootInit node cmp) []
  | step {tree tree' : RbRoot} {linked : List ℕ} {op : Op} {fuel ret : ℕ}
      (run : Runs tree linked) (allowed : Allowed tree.cmp linked op)
      (enough : linked.length < fuel) (exec : exec fuel tree op = some (tree', ret)) :
      Runs tree' (after tree.cmp linked op)

/-- The tree in memory: links, parents and colours as in `t`, which is balanced and has
the linked nodes in order. -/
structure Holds (tree : RbRoot) (linked : List ℕ) (t : Tree ℕ) : Prop where
  represents : Represents tree.toRbMem t
  balanced : ∃ n, Bal t .black n
  nodes : t.toList.Perm linked
  ordered : t.toList.Pairwise (Before tree.cmp linked)
  leftmost : tree.rbLeftmost = t.toList.head?.getD 0

namespace TotalPreorder
variable {cmp : ℕ → ℕ → Int} {a b c : ℕ}

theorem le_of_not_lt (h : TotalPreorder cmp) (not : ¬cmp a b < 0) : cmp b a ≤ 0 := by
  have := h.flip a b
  omega

theorem lt_of_lt_of_le (h : TotalPreorder cmp) (lt : cmp a b < 0) (le : cmp b c ≤ 0) :
    cmp a c < 0 := by
  by_contra not
  have back := h.trans b c a le (h.le_of_not_lt not)
  have := (h.flip a b).mp lt
  omega

theorem lt_of_le_of_lt (h : TotalPreorder cmp) (le : cmp a b ≤ 0) (lt : cmp b c < 0) :
    cmp a c < 0 := by
  by_contra not
  have back := h.trans c a b (h.le_of_not_lt not) le
  have := (h.flip b c).mp lt
  omega

theorem consistent (h : TotalPreorder cmp) (x : ℕ) (linked : List ℕ) :
    Consistent cmp linked (cmp x) := by
  intro a _ b _ le
  refine ⟨fun gt => ?_, fun lt => h.lt_of_lt_of_le lt le⟩
  exact (h.flip a x).mp (h.lt_of_le_of_lt le ((h.flip b x).mpr gt))

end TotalPreorder

theorem turnOf_gt {c : Int} : turnOf c = .gt ↔ 0 < c := by
  unfold turnOf
  grind

theorem turnOf_lt {c : Int} : turnOf c = .lt ↔ c < 0 := by
  unfold turnOf
  grind

theorem turnOf_eq {c : Int} : turnOf c = .eq ↔ c = 0 := by
  unfold turnOf
  grind

section Order
variable {cmp : ℕ → ℕ → Int} {linked before after : List ℕ} {a b x : ℕ}

theorem Before.le (h : Before cmp linked a b) : cmp a b ≤ 0 := by
  rcases h with lt | ⟨eq, -⟩ <;> omega

theorem Before.sub {linked' : List ℕ} (h : Before cmp linked a b)
    (sub : linked.Sublist linked') : Before cmp linked' a b :=
  h.imp id (And.imp_right fun inner => inner.trans sub)

theorem Consistent.ordered {key : ℕ → Int} {l : List ℕ} (h : Consistent cmp linked key)
    (nodes : l.Perm linked) (sorted : l.Pairwise (Before cmp linked)) :
    Root.Ordered (fun y => turnOf (key y)) l := by
  refine sorted.imp_of_mem fun {a b} memA memB before => ?_
  simp only [turnOf_gt, turnOf_lt]
  exact h a (nodes.mem_iff.mp memA) b (nodes.mem_iff.mp memB) before.le

theorem ordered_insert (order : TotalPreorder cmp) (nodes : (before ++ after).Perm linked)
    (sorted : (before ++ after).Pairwise (Before cmp linked))
    (ge : ∀ b ∈ before, ¬cmp x b < 0) (lt : ∀ b ∈ after, cmp x b < 0) :
    (before ++ x :: after).Pairwise (Before cmp (linked ++ [x])) := by
  have old : ∀ {a b}, Before cmp linked a b → Before cmp (linked ++ [x]) a b :=
    fun h => h.sub (List.sublist_append_left linked [x])
  obtain ⟨left, right, cross⟩ := List.pairwise_append.mp sorted
  refine List.pairwise_append.mpr ⟨left.imp old, List.pairwise_cons.mpr
    ⟨fun b mem => .inl (lt b mem), right.imp old⟩, fun a memA b memB => ?_⟩
  rcases List.mem_cons.mp memB with rfl | memB
  · have le := order.le_of_not_lt (ge a memA)
    rcases Int.lt_or_eq_of_le le with less | eq
    · exact .inl less
    · have mem : a ∈ linked := nodes.mem_iff.mp (List.mem_append_left after memA)
      have sub := (List.singleton_sublist.mpr mem).append (List.Sublist.refl [b])
      exact .inr ⟨eq, sub⟩
  · exact old (cross a memA b memB)

theorem perm_insert (nodes : (before ++ after).Perm linked) (x : ℕ) :
    (before ++ x :: after).Perm (linked ++ [x]) :=
  (List.perm_middle.trans (nodes.cons x)).trans (List.perm_append_singleton x linked).symm

theorem ordered_erase (nodup : linked.Nodup) (nodes : (before ++ x :: after).Perm linked)
    (sorted : (before ++ x :: after).Pairwise (Before cmp linked)) :
    (before ++ after).Perm (linked.erase x) ∧
      (before ++ after).Pairwise (Before cmp (linked.erase x)) := by
  have sub : (before ++ after).Sublist (before ++ x :: after) :=
    (List.Sublist.refl before).append (List.sublist_cons_self x after)
  have fresh := List.nodup_middle.mp (nodes.nodup_iff.mpr nodup)
  have apart : ∀ a ∈ before ++ after, a ≠ x := fun a mem eq =>
    (List.nodup_cons.mp fresh).1 (eq ▸ mem)
  constructor
  · have erased := ((List.perm_middle.symm.trans nodes)).erase x
    rwa [List.erase_cons_head] at erased
  · refine (sorted.sublist sub).imp_of_mem fun {a b} memA memB before => ?_
    refine before.imp id (And.imp_right fun inner => ?_)
    rw [nodup.erase_eq_filter]
    have kept := inner.filter fun y => y != x
    simpa [apart a memA, apart b memB] using kept

end Order

namespace Holds
variable {tree : RbRoot} {linked : List ℕ} {t : Tree ℕ} {x fuel : ℕ}

/-- The tree as `Root` has it. -/
def root (t : Tree ℕ) : Root ℕ := ⟨t, t.toList.head?⟩

theorem wf (h : Holds tree linked t) : (root t).Wf := ⟨h.balanced, rfl⟩

theorem refines (h : Holds tree linked t) : Refines tree (root t) :=
  ⟨h.represents, h.leftmost⟩

theorem nodup (h : Holds tree linked t) : linked.Nodup :=
  h.nodes.nodup_iff.mp (h.represents.foot_nodup (i := 0) rfl)

theorem pos (h : Holds tree linked t) (mem : x ∈ linked) : x ≠ 0 :=
  h.represents.ne 0 1 rfl rfl (by decide) (h.nodes.mem_iff.mpr mem)
    (List.mem_cons_self ..)

theorem of_refines {tree' : RbRoot} {t' : Root ℕ} (h : Refines tree' t') (wf : t'.Wf)
    (nodes : t'.nodes.Perm linked) (ordered : t'.nodes.Pairwise (Before tree'.cmp linked)) :
    Holds tree' linked t'.tree where
  represents := h.represents
  balanced := wf.bal
  nodes := nodes
  ordered := ordered
  leftmost := by rw [h.leftmost, wf.leftmost]; rfl

theorem init (node : ℕ → RbNode) (cmp : ℕ → ℕ → Int) : Holds (.rootInit node cmp) [] .nil where
  represents := by
    refine Sep.nil_iff.mpr ⟨fun p mem => ?_, by simp [Library.Layout.places, layout, Piece.foot,
      Path.nodes]⟩
    rw [List.mem_singleton.mp mem]
    exact ⟨trivial, rfl⟩
  balanced := ⟨0, .nil⟩
  nodes := .refl _
  ordered := .nil
  leftmost := rfl

theorem add (h : Holds tree linked t) (order : TotalPreorder tree.cmp) (pos : x ≠ 0)
    (free : x ∉ linked) (enough : linked.length < fuel) :
    ∃ tree' t', tree.ehRbAdd fuel x =
        some (tree', if ∀ y ∈ linked, tree.cmp x y < 0 then x else 0) ∧
      Holds tree' (linked ++ [x]) t' ∧ tree'.cmp = tree.cmp := by
  obtain ⟨t', before, after, run, wf, nodes, nodes', last, head⟩ :=
    Root.ehRbAdd_spec h.wf (fun y => tree.cmp x y < 0) x
  have perm : (before ++ after).Perm linked := nodes ▸ h.nodes
  have sorted : (before ++ after).Pairwise (Before tree.cmp linked) := nodes ▸ h.ordered
  have turns : Root.Ordered (fun y => if tree.cmp x y < 0 then .lt else .gt)
      (before ++ after) := by
    refine sorted.imp fun {a b} before => ?_
    have up : tree.cmp x a < 0 → tree.cmp x b < 0 := fun lt => order.lt_of_lt_of_le lt before.le
    by_cases lt : tree.cmp x a < 0
    · simp [lt, up lt]
    · simp [lt]
  obtain ⟨left, right, -⟩ := List.pairwise_append.mp turns
  have ge : ∀ b ∈ before, ¬tree.cmp x b < 0 := fun b mem => by
    simpa using Root.Ordered.all_gt left (by simpa using last) b mem
  have lt : ∀ b ∈ after, tree.cmp x b < 0 := fun b mem => by
    simpa using Root.Ordered.all_lt right (by simpa using head) b mem
  obtain ⟨tree', exec, refines, same⟩ := ehRbAdd_refines h.refines pos
    (fun mem => free (h.nodes.mem_iff.mp mem)) (h.nodes.length_eq ▸ enough) run
  have minimum : before.isEmpty = true ↔ ∀ y ∈ linked, tree.cmp x y < 0 := by
    rw [List.isEmpty_iff]
    constructor
    · rintro rfl y mem
      exact lt y (perm.mem_iff.mpr mem)
    · intro all
      refine List.eq_nil_iff_forall_not_mem.mpr fun b mem => ge b mem (all b ?_)
      exact perm.mem_iff.mp (List.mem_append_left after mem)
  refine ⟨tree', t'.tree, ?_, of_refines refines wf ?_ ?_, same⟩
  · rw [exec]
    simp only [minimum]
  · rw [nodes']
    exact perm_insert perm x
  · rw [nodes', same]
    exact ordered_insert order perm sorted ge lt

theorem findNewAdd (h : Holds tree linked t) (key : ℕ → Int) (newNode : ℕ)
    (order : TotalPreorder tree.cmp) (allowed : Allowed tree.cmp linked (.findNewAdd key newNode))
    (enough : linked.length < fuel) :
    ∃ tree' ret, tree.ehRbFindNewAdd fuel key newNode = some (tree', ret) ∧
      Returns tree linked tree' ret (.findNewAdd key newNode) ∧
      (∃ t', Holds tree' (after tree.cmp linked (.findNewAdd key newNode)) t') ∧
      tree'.cmp = tree.cmp := by
  obtain ⟨consistent, fits⟩ := allowed
  have turns := consistent.ordered h.nodes h.ordered
  have room : t.toList.length < fuel := h.nodes.length_eq ▸ enough
  cases found : (root t).ehRbMatchFind fun y => turnOf (key y) with
  | some y =>
    obtain ⟨mem, eq⟩ := Root.ehRbMatchFind_some found
    have hit : ∃ y ∈ linked, key y = 0 := ⟨y, h.nodes.mem_iff.mp mem, turnOf_eq.mp eq⟩
    refine ⟨tree, y, ehRbFindNewAdd_found h.refines room found, ?_, ⟨t, ?_⟩, rfl⟩
    · rw [Returns, if_pos hit]
      exact ⟨rfl, h.nodes.mem_iff.mp mem, turnOf_eq.mp eq⟩
    · rw [after, if_pos (.inl hit)]
      exact h
  | none =>
    have missing : ∀ y ∈ linked, key y ≠ 0 := fun y mem eq =>
      Root.ehRbMatchFind_none turns found y (h.nodes.mem_iff.mpr mem) (turnOf_eq.mpr eq)
    have miss : ¬∃ y ∈ linked, key y = 0 := by
      rintro ⟨y, mem, eq⟩
      exact missing y mem eq
    by_cases null : newNode = 0
    · subst null
      refine ⟨tree, 0, ehRbFindNewAdd_null h.refines room found, ?_, ⟨t, ?_⟩, rfl⟩
      · rw [Returns, if_neg miss]
        exact ⟨rfl, fun _ => rfl⟩
      · rw [after, if_pos (.inr rfl)]
        exact h
    obtain ⟨free, signs⟩ := fits missing null
    rcases Root.ehRbFindNewAdd_spec h.wf turns (some newNode) with
      ⟨y, mem, eq, -⟩ | ⟨-, t', before, after', run, wf, nodes, nodes', greater, less⟩
    · exact absurd (turnOf_eq.mp eq) (missing y (h.nodes.mem_iff.mp mem))
    have perm : (before ++ after').Perm linked := nodes ▸ h.nodes
    have sorted : (before ++ after').Pairwise (Before tree.cmp linked) := nodes ▸ h.ordered
    have ge : ∀ b ∈ before, ¬tree.cmp newNode b < 0 := fun b mem => by
      have turn := greater b mem
      rw [signs b (perm.mem_iff.mp (List.mem_append_left after' mem)), turnOf_gt] at turn
      omega
    have lt : ∀ b ∈ after', tree.cmp newNode b < 0 := fun b mem => by
      have turn := less b mem
      rwa [signs b (perm.mem_iff.mp (List.mem_append_right before mem)), turnOf_lt] at turn
    obtain ⟨tree', exec, refines, same⟩ := ehRbFindNewAdd_refines h.refines null
      (fun mem => free (h.nodes.mem_iff.mp mem)) room found run
    refine ⟨tree', newNode, exec, ?_, ⟨t'.tree, of_refines refines wf ?_ ?_⟩, same⟩
    · rw [Returns, if_neg miss]
      exact ⟨rfl, fun eq => absurd eq null⟩
    · rw [after, if_neg (not_or.mpr ⟨miss, null⟩), nodes']
      exact perm_insert perm newNode
    · rw [after, if_neg (not_or.mpr ⟨miss, null⟩), nodes', same]
      exact ordered_insert order perm sorted ge lt

theorem del (h : Holds tree linked t) (mem : x ∈ linked) (enough : linked.length < fuel) :
    ∃ tree' t' ret, tree.ehRbDel fuel x = some (tree', ret) ∧
      ret = (if tree.rbLeftmost = x then tree'.rbLeftmost else 0) ∧
      Holds tree' (linked.erase x) t' ∧ tree'.cmp = tree.cmp := by
  have distinct : (root t).nodes.Nodup := h.nodes.nodup_iff.mpr h.nodup
  obtain ⟨t', before, after, run, wf, nodes, nodes'⟩ :=
    Root.ehRbDel_spec h.wf distinct (h.nodes.mem_iff.mpr mem)
  obtain ⟨tree', exec, refines, same⟩ := ehRbDel_refines h.refines (h.pos mem)
    (h.nodes.length_eq ▸ enough) run
  have place : t.toList = before ++ x :: after := nodes
  obtain ⟨perm, sorted⟩ := ordered_erase h.nodup (place ▸ h.nodes) (place ▸ h.ordered)
  refine ⟨tree', t'.tree, _, exec, ?_, of_refines refines wf ?_ ?_, same⟩
  · rw [h.leftmost, refines.leftmost, wf.leftmost, nodes', place]
    cases before with
    | nil => simp
    | cons b before =>
      have ne : b ≠ x := by
        rintro rfl
        have := place ▸ (h.nodes.nodup_iff.mpr h.nodup)
        simp at this
      simp [ne]
  · rw [nodes']
    exact perm
  · rw [nodes', same]
    exact sorted

theorem write (h : Holds tree linked t) (pos : x ≠ 0) (free : x ∉ linked) (n : RbNode) :
    Holds ⟨tree.write x n, tree.rbLeftmost, tree.cmp⟩ linked t where
  represents := by
    refine h.represents.keep fun a mem => ⟨Function.update_of_ne ?_ .., fun _ => rfl⟩
    rintro rfl
    have places : a ∈ t.toList ++ [0] := mem
    rcases List.mem_append.mp places with mem | mem
    · exact free (h.nodes.mem_iff.mp mem)
    · exact pos (List.mem_singleton.mp mem)
  balanced := h.balanced
  nodes := h.nodes
  ordered := h.ordered
  leftmost := h.leftmost

theorem rekey {cmp : ℕ → ℕ → Int} (h : Holds tree linked t)
    (same : ∀ a ∈ linked, ∀ b ∈ linked, turnOf (cmp a b) = turnOf (tree.cmp a b)) :
    Holds ⟨tree.toRbMem, tree.rbLeftmost, cmp⟩ linked t where
  represents := h.represents
  balanced := h.balanced
  nodes := h.nodes
  ordered := by
    refine h.ordered.imp_of_mem fun {a b} memA memB before => ?_
    have turn := same a (h.nodes.mem_iff.mp memA) b (h.nodes.mem_iff.mp memB)
    rcases before with lt | ⟨eq, sub⟩
    · exact .inl (turnOf_lt.mp (turn.trans (turnOf_lt.mpr lt)))
    · exact .inr ⟨turnOf_eq.mp (turn.trans (turnOf_eq.mpr eq)), sub⟩
  leftmost := h.leftmost

theorem step {op : Op} (h : Holds tree linked t) (order : TotalPreorder tree.cmp)
    (allowed : Allowed tree.cmp linked op) (enough : linked.length < fuel) :
    ∃ tree' ret, exec fuel tree op = some (tree', ret) ∧ Returns tree linked tree' ret op ∧
      (∃ t', Holds tree' (after tree.cmp linked op) t') ∧ TotalPreorder tree'.cmp := by
  cases op with
  | add x =>
    obtain ⟨tree', t', run, holds, same⟩ := h.add order allowed.1 allowed.2 enough
    exact ⟨tree', _, run, rfl, ⟨t', holds⟩, same ▸ order⟩
  | findAdd x =>
    obtain ⟨pos, free⟩ := allowed
    obtain ⟨tree', ret, run, returns, holds, same⟩ := h.findNewAdd (tree.cmp x) x order
      ⟨order.consistent x linked, fun _ _ => ⟨free, fun _ _ => rfl⟩⟩ enough
    simp only [after, pos, or_false] at holds
    refine ⟨tree', ret, (ehRbFindAdd_eq pos).trans run, ?_, holds, same ▸ order⟩
    simp only [Returns] at returns ⊢
    by_cases found : ∃ y ∈ linked, tree.cmp x y = 0
    · rwa [if_pos found] at returns ⊢
    · rw [if_neg found] at returns ⊢
      exact returns.1
  | findNewAdd key newNode =>
    obtain ⟨tree', ret, run, returns, holds, same⟩ := h.findNewAdd key newNode order allowed enough
    exact ⟨tree', ret, run, returns, holds, same ▸ order⟩
  | del x =>
    obtain ⟨tree', t', ret, run, returns, holds, same⟩ := h.del allowed enough
    exact ⟨tree', ret, run, returns, ⟨t', holds⟩, same ▸ order⟩
  | write x n => exact ⟨_, _, rfl, trivial, ⟨t, h.write allowed.1 allowed.2 n⟩, order⟩
  | rekey cmp => exact ⟨_, _, rfl, trivial, ⟨t, h.rekey allowed.2⟩, allowed.1⟩

end Holds

theorem Runs.holds {tree : RbRoot} {linked : List ℕ} (run : Runs tree linked) :
    (∃ t, Holds tree linked t) ∧ TotalPreorder tree.cmp := by
  induction run with
  | init node order => exact ⟨⟨.nil, .init node _⟩, order⟩
  | step run allowed enough exec ih =>
    obtain ⟨⟨t, holds⟩, order⟩ := ih
    obtain ⟨tree', ret, exec', -, holds', order'⟩ := holds.step order allowed enough
    cases exec.symm.trans exec'
    exact ⟨holds', order'⟩

/-- In every reachable state the tree in memory is a balanced search tree of the linked
nodes with its first node cached; every call returns what it should, and a search finds a
match whenever there is one. -/
theorem rbTree_runs {tree : RbRoot} {linked : List ℕ} (run : Runs tree linked) :
    (∃ t, Holds tree linked t) ∧
    (∀ op fuel, Allowed tree.cmp linked op → linked.length < fuel →
      ∃ tree' ret, exec fuel tree op = some (tree', ret) ∧
        Returns tree linked tree' ret op ∧
        ∃ t', Holds tree' (after tree.cmp linked op) t') ∧
    ∀ key fuel, Consistent tree.cmp linked key → linked.length < fuel →
      ∃ y, tree.ehRbMatchFind fuel key = some y ∧ (y ≠ 0 → y ∈ linked ∧ key y = 0) ∧
        (y = 0 → ∀ z ∈ linked, key z ≠ 0) := by
  obtain ⟨⟨t, holds⟩, order⟩ := run.holds
  refine ⟨⟨t, holds⟩, fun op fuel allowed enough => ?_, fun key fuel consistent enough => ?_⟩
  · obtain ⟨tree', ret, exec, returns, after, -⟩ := holds.step order allowed enough
    exact ⟨tree', ret, exec, returns, after⟩
  · have found := ehRbMatchFind_refines holds.refines key (holds.nodes.length_eq ▸ enough)
    refine ⟨_, found, ?_⟩
    cases shape : (Holds.root t).ehRbMatchFind fun y => turnOf (key y) with
    | some y =>
      obtain ⟨mem, eq⟩ := Root.ehRbMatchFind_some shape
      have linkedY := holds.nodes.mem_iff.mp mem
      exact ⟨fun _ => ⟨linkedY, turnOf_eq.mp eq⟩, fun null => absurd null (holds.pos linkedY)⟩
    | none =>
      have turns : Root.Ordered _ (Holds.root t).nodes :=
        consistent.ordered holds.nodes holds.ordered
      have missing := Root.ehRbMatchFind_none turns shape
      exact ⟨fun pos => absurd rfl pos, fun _ z mem eq =>
        missing z (holds.nodes.mem_iff.mpr mem) (turnOf_eq.mpr eq)⟩

theorem rbTree_runs_three : ∃ tree linked, Runs tree linked ∧ linked = [5, 9] ∧
    (∃ t, Holds tree linked t) ∧ tree.ehRbMatchFind 3 (fun y => 9 - y) = some 9 := by
  have order : TotalPreorder fun a b => (a : Int) - b :=
    ⟨fun a b => by omega, fun a b c => by omega⟩
  have start := Runs.init (fun _ => ⟨0, 0, 0⟩) order
  have one : Runs _ [7] := start.step (show Allowed _ _ (.add 7) from ⟨by decide, by decide⟩)
    (by decide : 0 < 1) rfl
  have two : Runs _ [7, 5] := one.step (show Allowed _ _ (.add 5) from ⟨by decide, by decide⟩)
    (by decide : 1 < 2) rfl
  have three : Runs _ [7, 5, 9] := two.step
    (show Allowed _ _ (.findAdd 9) from ⟨by decide, by decide⟩) (by decide : 2 < 3) rfl
  have run : Runs _ [5, 9] := three.step
    (show Allowed _ [7, 5, 9] (.del 7) from (by decide : 7 ∈ [7, 5, 9])) (by decide : 3 < 4) rfl
  obtain ⟨holds, -, search⟩ := rbTree_runs run
  refine ⟨_, _, run, rfl, holds, ?_⟩
  obtain ⟨y, found, hit, miss⟩ := search (fun y => 9 - y) 3 (fun a _ b _ le => by
    change (a : Int) - b ≤ 0 at le
    change (0 < (9 : Int) - b → 0 < (9 : Int) - a) ∧ ((9 : Int) - a < 0 → (9 : Int) - b < 0)
    omega) (by decide)
  have nine : y = 9 := by
    by_cases null : y = 0
    · exact absurd rfl (miss null 9 (by decide))
    · have := (hit null).2
      omega
  rw [found, nine]

end EventHub.RbTree
