import EventHub.RbTree.Matching

/-! Both ways through a tree: `eh_rb_prev` is `eh_rb_next` of the mirrored tree. -/

namespace EventHub.RbTree

namespace RbMem

/-- `while (node->rb_right) node = node->rb_right`. -/
def goRight : Nat → Nat → RbMem → Option Nat
  | 0, _, _ => none
  | fuel + 1, node, m =>
    if m.child .right node ≠ 0 then goRight fuel (m.child .right node) m else some node

/-- `while ((parent = rb_parent(node)) && node == parent->rb_left) node = parent`; the result
is the parent. -/
def goUpLeft : Nat → Nat → RbMem → Option Nat
  | 0, _, _ => none
  | fuel + 1, node, m =>
    let parent := m.rbParent node
    if parent ≠ 0 ∧ node = m.child .left parent then goUpLeft fuel parent m else some parent

def ehRbPrev (fuel node : Nat) (m : RbMem) : Option Nat :=
  if (m.node node).parentAndColor = 4 * node then some 0
  else if m.child .left node ≠ 0 then goRight fuel (m.child .left node) m
  else goUpLeft fuel node m

def ehRbLast (fuel : Nat) (m : RbMem) : Option Nat :=
  if m.rbNode = 0 then some 0 else goRight fuel m.rbNode m

/-- A loop from `pos` on, with the nodes that its body sees. -/
def forEach (next : Nat → Option Nat) : Nat → Nat → Option (List Nat)
  | 0, _ => none
  | rounds + 1, pos =>
    if pos = 0 then some []
    else (next pos).bind fun n => (forEach next rounds n).map fun rest => pos :: rest

end RbMem

namespace RbRoot

def ehRbNextForEachEntry (fuel : Nat) (tree : RbRoot) : Option (List Nat) :=
  RbMem.forEach (fun pos => tree.ehRbNext fuel pos) fuel tree.rbLeftmost

def ehRbPrevForEachEntry (fuel : Nat) (tree : RbRoot) : Option (List Nat) :=
  (tree.ehRbLast fuel).bind (RbMem.forEach (fun pos => tree.ehRbPrev fuel pos) fuel)

end RbRoot

/-! The mirror. -/

def Tree.mirror {α : Type} : Tree α → Tree α
  | .nil => .nil
  | .node c l x r => .node c r.mirror x l.mirror

def RbNode.mirror (n : RbNode) : RbNode := ⟨n.parentAndColor, n.rbLeft, n.rbRight⟩

def RbMem.mirror (m : RbMem) : RbMem := ⟨fun x => (m.node x).mirror, m.rbNode⟩

section Mirror
variable {m : RbMem} {t : Tree Nat} {parent : ℕ}

theorem Tree.mirror_toList {α : Type} (t : Tree α) : t.mirror.toList = t.toList.reverse := by
  induction t with
  | nil => rfl
  | node c l x r ihl ihr => simp [Tree.mirror, Tree.toList, ihl, ihr]

theorem Tree.mirror_ptr (t : Tree Nat) : t.mirror.ptr = t.ptr := by
  cases t <;> rfl

theorem Tree.In.mirror (h : t.In m parent) : t.mirror.In m.mirror parent := by
  induction t generalizing parent with
  | nil => trivial
  | node c l x r ihl ihr =>
    obtain ⟨⟨pos, node⟩, left, right⟩ := h
    refine ⟨⟨pos, ?_⟩, ihr right, ihl left⟩
    change (m.node x).mirror = _
    rw [node, Tree.mirror_ptr, Tree.mirror_ptr]
    rfl

theorem Represents.mirror (h : Represents m t) : Represents m.mirror t.mirror where
  holds p mem := by
    rcases List.mem_cons.mp mem with rfl | mem
    · exact Tree.In.mirror (h.get 0 rfl)
    · rw [List.mem_singleton.mp mem]
      exact ⟨trivial, (h.get 1 rfl).2.trans t.mirror_ptr.symm⟩
  nodup := by
    have same : (layout.places [.tree t.mirror 0, .up [] t.mirror.ptr]).Perm
        (layout.places [.tree t 0, .up [] t.ptr]) := by
      change (t.mirror.toList ++ [0]).Perm (t.toList ++ [0])
      rw [Tree.mirror_toList]
      exact t.toList.reverse_perm.append_right _
    exact same.nodup_iff.mpr h.nodup

theorem mirror_child (m : RbMem) (d : Dir) (x : ℕ) : m.mirror.child d x = m.child d.flip x := by
  cases d <;> rfl

theorem goRight_mirror (fuel x : ℕ) (m : RbMem) : m.goRight fuel x = m.mirror.goLeft fuel x := by
  induction fuel generalizing x with
  | zero => rfl
  | succ fuel ih =>
    rw [RbMem.goRight, RbMem.goLeft, mirror_child, ih]
    rfl

theorem goUpLeft_mirror (fuel x : ℕ) (m : RbMem) : m.goUpLeft fuel x = m.mirror.goUp fuel x := by
  induction fuel generalizing x with
  | zero => rfl
  | succ fuel ih =>
    simp only [RbMem.goUpLeft, RbMem.goUp, mirror_child, ih]
    rfl

theorem ehRbPrev_mirror (fuel x : ℕ) (m : RbMem) :
    m.ehRbPrev fuel x = m.mirror.ehRbNext fuel x := by
  rw [RbMem.ehRbPrev, RbMem.ehRbNext, goRight_mirror, goUpLeft_mirror, mirror_child]
  rfl

end Mirror

section Loops
variable {m : RbMem} {t : Tree Nat} {fuel x : ℕ} {before after : List ℕ}

theorem ehRbPrev_before (h : Represents m t) (place : t.toList = before ++ x :: after)
    (enough : t.toList.length < fuel) :
    m.ehRbPrev fuel x = some (before.reverse.head?.getD 0) := by
  have mirrored : t.mirror.toList = after.reverse ++ x :: before.reverse := by
    rw [Tree.mirror_toList, place]
    simp
  rw [ehRbPrev_mirror]
  refine ehRbNext_after h.mirror mirrored ?_
  rwa [Tree.mirror_toList, List.length_reverse]

theorem ehRbLast_run (h : Represents m t) (enough : t.toList.length < fuel) :
    m.ehRbLast fuel = some (t.toList.reverse.head?.getD 0) := by
  have mirrored := h.mirror
  have root : m.rbNode = t.mirror.ptr := (h.get 1 rfl).2.trans t.mirror_ptr.symm
  rw [← Tree.mirror_toList, RbMem.ehRbLast, root, goRight_mirror]
  have size : t.mirror.toList.length < fuel := by
    rwa [Tree.mirror_toList, List.length_reverse]
  cases shape : t.mirror with
  | nil => rfl
  | node c l y r =>
    rw [shape] at mirrored size
    have pos : y ≠ 0 := (mirrored.get 0 rfl).1.1
    rw [Tree.ptr, if_neg pos, goLeft_run (mirrored.get 0 rfl) (by
      simp only [Tree.toList, List.length_append, List.length_cons] at size
      omega) []]
    have first := Cursor.ehRbNext_eq ⟨.black, .nil, 0, .node c l y r, []⟩
    change some (descendLeft c l y r []).val = (_ ++ []).head? at first
    rw [List.append_nil] at first
    rw [← first]
    rfl

theorem forEach_run {next : ℕ → Option ℕ} {l todo : List ℕ} (pos : ∀ x ∈ l, x ≠ 0)
    (goes : ∀ before x after, l = before ++ x :: after → next x = some (after.head?.getD 0))
    (split : l = before ++ todo) {rounds : ℕ} (left : todo.length < rounds) :
    RbMem.forEach next rounds (todo.head?.getD 0) = some todo := by
  obtain ⟨rounds, rfl⟩ := Nat.exists_eq_succ_of_ne_zero (Nat.ne_of_gt (Nat.zero_lt_of_lt left))
  induction todo generalizing before rounds with
  | nil => rfl
  | cons x todo ih =>
    obtain ⟨rounds, rfl⟩ : ∃ k, rounds = k + 1 :=
      Nat.exists_eq_succ_of_ne_zero (by simp at left; omega)
    have rest := ih (show l = (before ++ [x]) ++ todo by simp [split]) rounds
      (by simpa using left)
    rw [RbMem.forEach, if_neg (show (x :: todo).head?.getD 0 ≠ 0 from pos x (by simp [split])),
      List.head?_cons, Option.getD_some, goes before x todo split, Option.bind_some, rest]
    rfl

end Loops

section Runs
variable {tree : RbRoot} {linked : List ℕ} {t : Tree ℕ} {fuel : ℕ}

theorem Holds.nextForEachEntry (h : Holds tree linked t) (enough : linked.length < fuel) :
    tree.ehRbNextForEachEntry fuel = some t.toList := by
  have room : t.toList.length < fuel := h.nodes.length_eq ▸ enough
  rw [RbRoot.ehRbNextForEachEntry, h.leftmost]
  exact forEach_run (fun x mem => h.pos (h.nodes.mem_iff.mp mem))
    (fun before x after place => ehRbNext_after h.represents place room) (List.nil_append _).symm room

theorem Holds.prevForEachEntry (h : Holds tree linked t) (enough : linked.length < fuel) :
    tree.ehRbPrevForEachEntry fuel = some t.toList.reverse := by
  have room : t.toList.length < fuel := h.nodes.length_eq ▸ enough
  rw [RbRoot.ehRbPrevForEachEntry, ehRbLast_run h.represents room, Option.bind_some]
  refine forEach_run (fun x mem => h.pos (h.nodes.mem_iff.mp (List.mem_reverse.mp mem)))
    (fun before x after place => ?_) (List.nil_append _).symm (by rwa [List.length_reverse])
  have turned : t.toList = after.reverse ++ x :: before.reverse := by
    rw [← t.toList.reverse_reverse, place]
    simp
  rw [ehRbPrev_before h.represents turned room, List.reverse_reverse]

/-- In every tree that the operations build, both loops see all the linked nodes, sorted and
with equal keys in the order of their insertion, the one forwards and the other backwards. -/
theorem ehRbForEachEntry_runs (run : Runs tree linked) (enough : linked.length < fuel) :
    ∃ l, l.Perm linked ∧ l.Pairwise (Before tree.cmp linked) ∧
      tree.ehRbNextForEachEntry fuel = some l ∧
      tree.ehRbPrevForEachEntry fuel = some l.reverse := by
  obtain ⟨⟨t, holds⟩, -⟩ := run.holds
  exact ⟨t.toList, holds.nodes, holds.ordered, holds.nextForEachEntry enough,
    holds.prevForEachEntry enough⟩

end Runs

theorem ehRbForEachEntry_runs_equal : ∃ tree linked, Runs tree linked ∧ linked = [6, 9, 5] ∧
    tree.ehRbNextForEachEntry 4 = some [6, 5, 9] ∧
    tree.ehRbPrevForEachEntry 4 = some [9, 5, 6] := by
  have order : TotalPreorder fun a b => (((a / 4 : ℕ) : Int) - (b / 4 : ℕ)) :=
    ⟨fun a b => by omega, fun a b c => by omega⟩
  have start := Runs.init (fun _ => ⟨0, 0, 0⟩) order
  have one : Runs _ [6] := start.step (show Allowed _ _ (.add 6) from ⟨by decide, by decide⟩)
    (by decide : 0 < 1) rfl
  have two : Runs _ [6, 9] := one.step (show Allowed _ _ (.add 9) from ⟨by decide, by decide⟩)
    (by decide : 1 < 2) rfl
  have run : Runs _ [6, 9, 5] := two.step
    (show Allowed _ _ (.add 5) from ⟨by decide, by decide⟩) (by decide : 2 < 3) rfl
  have enough : [6, 9, 5].length < 4 := by decide
  obtain ⟨l, -, -, next, prev⟩ := ehRbForEachEntry_runs run enough
  have forwards : l = [6, 5, 9] := Option.some.inj (next.symm.trans rfl)
  subst forwards
  exact ⟨_, _, run, rfl, next, prev⟩

/-! `rb_replace_node`. -/

def RbMem.rbReplaceNode (victim new : Nat) (m : RbMem) : RbMem :=
  let parent := m.rbParent victim
  let m := m.write new (m.node victim)
  let m := if m.child .left victim ≠ 0 then m.setParent (m.child .left victim) new else m
  let m := if m.child .right victim ≠ 0 then m.setParent (m.child .right victim) new else m
  m.changeChild victim new parent

def RbRoot.rbReplaceNode (victim new : Nat) (tree : RbRoot) : RbRoot :=
  ⟨tree.toRbMem.rbReplaceNode victim new, tree.rbLeftmost, tree.cmp⟩

def Tree.map {α : Type} (f : α → α) : Tree α → Tree α
  | .nil => .nil
  | .node c l x r => .node c (l.map f) (f x) (r.map f)

section Map
variable {α : Type} {f : α → α} {t l r : Tree α}

theorem Tree.map_toList (f : α → α) (t : Tree α) : (t.map f).toList = t.toList.map f := by
  induction t with
  | nil => rfl
  | node c l x r ihl ihr => simp [Tree.map, Tree.toList, ihl, ihr]

theorem Tree.map_self (same : ∀ x ∈ t.toList, f x = x) : t.map f = t := by
  induction t with
  | nil => rfl
  | node c l x r ihl ihr =>
    simp only [Tree.toList, List.mem_append, List.mem_cons] at same
    rw [Tree.map, ihl fun y mem => same y (.inl mem), ihr fun y mem => same y (.inr (.inr mem)),
      same x (.inr (.inl rfl))]

theorem Bal.map {c : Color} {n : ℕ} (h : Bal t c n) (f : α → α) : Bal (t.map f) c n := by
  induction h with
  | nil => exact .nil
  | red _ _ ihl ihr => exact .red ihl ihr
  | black _ _ ihl ihr => exact .black ihl ihr

theorem zip_map (t : Tree α) {path : Path α} (same : ∀ x ∈ path.nodes, f x = x) :
    (zip t path).map f = zip (t.map f) path := by
  induction path generalizing t with
  | nil => rfl
  | cons g up ih =>
    simp only [Path.nodes, List.cons_append, List.mem_cons, List.mem_append] at same
    have sibling : g.sibling.map f = g.sibling :=
      Tree.map_self fun y mem => same y (.inr (.inl mem))
    rw [zip, ih _ fun y mem => same y (.inr (.inr mem)), zip]
    congr 1
    cases side : g.dir <;> simp [Dir.join, Dir.pick, Tree.map, sibling, same g.val (.inl rfl)]

end Map

section Replace
variable {m : RbMem} {c : Color} {l r t : Tree Nat} {path : Path Nat} {victim new : ℕ}

theorem rbReplaceNode_place (h : Represents m (zip (.node c l victim r) path)) (pos : new ≠ 0)
    (free : new ∉ (zip (.node c l victim r) path).toList) :
    Represents (m.rbReplaceNode victim new) (zip (.node c l new r) path) := by
  obtain ⟨n, shape⟩ : ∃ n : RbNode, n = ⟨word (path.ptr 0) c, r.ptr, l.ptr⟩ := ⟨_, rfl⟩
  have parts : Sep m [.cell victim n, .tree l victim, .tree r victim, .up path victim] :=
    shape ▸ (Sep.node_iff .left).mp ((Sep.zip_iff (.node c l victim r) path).mpr h)
  have out : new ∉ layout.places [.cell victim n, .tree l victim, .tree r victim,
      .up path victim] := by
    rw [(zip_nodes _ path).mem_iff] at free
    simp only [Tree.toList, List.mem_append, List.mem_cons, not_or] at free
    simp [layout, Library.Layout.places, Piece.foot, free, pos]
  obtain ⟨m₁, copy⟩ : ∃ m₁, m₁ = m.write new n := ⟨_, rfl⟩
  have copied : Sep m₁ [.cell new n, .cell victim n, .tree l victim, .tree r victim,
      .up path victim] := by
    have kept : Sep m₁ [.cell victim n, .tree l victim, .tree r victim, .up path victim] :=
      parts.keep fun a mem => copy ▸
        ⟨Function.update_of_ne (fun eq => out (by rwa [eq] at mem)) .., fun _ => rfl⟩
    have cell : layout.holds m₁ (.cell new n) := ⟨pos, copy ▸ Function.update_self ..⟩
    exact kept.cons cell (List.nodup_singleton new) fun a mem => List.mem_singleton.mp mem ▸ out
  have below := copied.setParentIf 2 rfl new
  have place := ((below.setParentIf 3 rfl new).changeChild 4 1 rfl rfl new).pick
    [0, 2, 3, 4] (by decide)
  have parent : m.rbParent victim = path.ptr 0 := by
    rw [RbMem.rbParent, parts.node 0 rfl, shape, word_parent]
  have left : m₁.child .left victim = l.ptr := by
    rw [RbMem.child, copied.node 1 rfl, shape]
    rfl
  have right : (if l.ptr ≠ 0 then m₁.setParent l.ptr new else m₁).child .right victim = r.ptr := by
    rw [RbMem.child, below.node 1 rfl, shape]
    rfl
  simp only [RbMem.rbReplaceNode, parent, parts.node 0 rfl, ← copy, left, right]
  refine (Sep.zip_iff (.node c l new r) path).mp ((Sep.node_iff .left).mpr ?_)
  rw [shape] at place
  exact place

theorem rbReplaceNode_run (h : Represents m t) (mem : victim ∈ t.toList) (pos : new ≠ 0)
    (free : new ∉ t.toList) :
    Represents (m.rbReplaceNode victim new) (t.map fun y => if y = victim then new else y) := by
  obtain ⟨n, found⟩ := locate_of_mem mem []
  obtain ⟨rfl, whole⟩ := locate_spec found
  change zip n.tree n.path = t at whole
  obtain ⟨c, l, victim, r, path⟩ := n
  subst whole
  dsimp only [Cursor.tree] at h free ⊢
  have nodup : (zip (.node c l victim r) path).toList.Nodup := h.foot_nodup (i := 0) rfl
  rw [(zip_nodes _ path).nodup_iff] at nodup
  obtain ⟨inner, -, apart⟩ := List.nodup_append.mp nodup
  have others := List.nodup_cons.mp (List.nodup_middle.mp inner)
  rw [zip_map _ fun y mem => if_neg fun eq => apart victim (by simp [Tree.toList]) y mem eq.symm,
    Tree.map, if_pos rfl, Tree.map_self fun y mem => if_neg fun eq => others.1 (by simp [← eq, mem]),
    Tree.map_self fun y mem => if_neg fun eq => others.1 (by simp [← eq, mem])]
  exact rbReplaceNode_place h pos free

end Replace

section Swap
variable {tree : RbRoot} {linked : List ℕ} {t : Tree ℕ} {cmp : ℕ → ℕ → Int} {victim new : ℕ}

def swap (victim new y : ℕ) : ℕ := if y = victim then new else y

def Alike (cmp : ℕ → ℕ → Int) (linked : List ℕ) (victim new : ℕ) : Prop :=
  ∀ y ∈ linked, turnOf (cmp new y) = turnOf (cmp victim y) ∧
    turnOf (cmp y new) = turnOf (cmp y victim)

theorem Alike.swap (alike : Alike cmp linked victim new) (order : TotalPreorder cmp)
    {a b : ℕ} (memA : a ∈ linked) (memB : b ∈ linked) :
    turnOf (cmp (swap victim new a) (swap victim new b)) = turnOf (cmp a b) := by
  have self : ∀ x, cmp x x = 0 := fun x => by
    have := order.flip x x
    omega
  by_cases eqA : a = victim <;> by_cases eqB : b = victim
  · simp [RbTree.swap, eqA, eqB, self]
  · rw [RbTree.swap, if_pos eqA, RbTree.swap, if_neg eqB, (alike b memB).1, eqA]
  · rw [RbTree.swap, if_neg eqA, RbTree.swap, if_pos eqB, (alike a memA).2, eqB]
  · rw [RbTree.swap, if_neg eqA, RbTree.swap, if_neg eqB]

theorem Before.swap (alike : Alike cmp linked victim new) (order : TotalPreorder cmp)
    {a b : ℕ} (memA : a ∈ linked) (memB : b ∈ linked) (before : Before cmp linked a b) :
    Before cmp (linked.map (swap victim new)) (swap victim new a) (swap victim new b) := by
  have turn := alike.swap order memA memB
  rcases before with lt | ⟨eq, sub⟩
  · exact .inl (turnOf_lt.mp (turn.trans (turnOf_lt.mpr lt)))
  · exact .inr ⟨turnOf_eq.mp (turn.trans (turnOf_eq.mpr eq)), sub.map (RbTree.swap victim new)⟩

theorem Holds.rbReplaceNode (h : Holds tree linked t) (order : TotalPreorder tree.cmp)
    (mem : victim ∈ linked) (pos : new ≠ 0) (free : new ∉ linked)
    (alike : Alike tree.cmp linked victim new) :
    Holds { tree.rbReplaceNode victim new with rbLeftmost := swap victim new tree.rbLeftmost }
      (linked.map (swap victim new)) (t.map (swap victim new)) where
  represents := rbReplaceNode_run h.represents (h.nodes.mem_iff.mpr mem) pos
    fun inTree => free (h.nodes.mem_iff.mp inTree)
  balanced := h.balanced.imp fun _ bal => bal.map _
  nodes := by
    rw [Tree.map_toList]
    exact h.nodes.map _
  ordered := by
    rw [Tree.map_toList, List.pairwise_map]
    exact h.ordered.imp_of_mem fun memA memB before =>
      before.swap alike order (h.nodes.mem_iff.mp memA) (h.nodes.mem_iff.mp memB)
  leftmost := by
    have first := h.leftmost
    have inTree := h.nodes.mem_iff.mpr mem
    rw [Tree.map_toList, List.head?_map]
    cases shape : t.toList with
    | nil =>
      rw [shape] at inTree
      cases inTree
    | cons x l =>
      rw [shape, List.head?_cons, Option.getD_some] at first
      rw [List.head?_cons, Option.map_some, Option.getD_some, ← first]

/-- A node that compares alike takes the place of another one, in the same shape and with the same
colour. The first node that the root caches is not updated: the tree is as it should be exactly
where the other one is not the first. -/
theorem rbReplaceNode_holds_iff (run : Runs tree linked) (mem : victim ∈ linked) (pos : new ≠ 0)
    (free : new ∉ linked) (alike : Alike tree.cmp linked victim new) :
    ∃ t, Holds tree linked t ∧
      Holds { tree.rbReplaceNode victim new with rbLeftmost := swap victim new tree.rbLeftmost }
        (linked.map (swap victim new)) (t.map (swap victim new)) ∧
      ((∃ t, Holds (tree.rbReplaceNode victim new) (linked.map (swap victim new)) t) ↔
        tree.rbLeftmost ≠ victim) := by
  obtain ⟨⟨t, holds⟩, order⟩ := run.holds
  have replaced := holds.rbReplaceNode order mem pos free alike
  refine ⟨t, holds, replaced, ?_, fun later => ⟨t.map (swap victim new), ?_⟩⟩
  · rintro ⟨t', after⟩ first
    have gone : victim ∉ linked.map (swap victim new) := by
      rw [List.mem_map]
      rintro ⟨y, memY, eq⟩
      by_cases same : y = victim
      · rw [swap, if_pos same] at eq
        exact free (eq ▸ mem)
      · rw [swap, if_neg same] at eq
        exact same eq
    have cached : victim = t'.toList.head?.getD 0 := first.symm.trans after.leftmost
    cases shape : t'.toList with
    | nil =>
      rw [shape] at cached
      exact holds.pos mem cached
    | cons x l =>
      rw [shape, List.head?_cons, Option.getD_some] at cached
      exact gone (after.nodes.mem_iff.mp (by simp [shape, cached]))
  · have kept : swap victim new tree.rbLeftmost = tree.rbLeftmost := if_neg later
    rw [kept] at replaced
    exact replaced

theorem rbReplaceNode_holds_iff_two : ∃ tree linked, Runs tree linked ∧ linked = [5, 8] ∧
    (∃ t, Holds (tree.rbReplaceNode 8 9) [5, 9] t) ∧
    (tree.rbReplaceNode 8 9).ehRbNextForEachEntry 3 = some [5, 9] := by
  have order : TotalPreorder fun a b => (((a / 4 : ℕ) : Int) - (b / 4 : ℕ)) :=
    ⟨fun a b => by omega, fun a b c => by omega⟩
  have start := Runs.init (fun _ => ⟨0, 0, 0⟩) order
  have one : Runs _ [5] := start.step (show Allowed _ _ (.add 5) from ⟨by decide, by decide⟩)
    (by decide : 0 < 1) rfl
  have run : Runs _ [5, 8] := one.step (show Allowed _ _ (.add 8) from ⟨by decide, by decide⟩)
    (by decide : 1 < 2) rfl
  obtain ⟨t, -, -, proper⟩ := rbReplaceNode_holds_iff run (by decide : 8 ∈ [5, 8])
    (by decide : 9 ≠ 0) (by decide) fun y mem => by
      rcases List.mem_pair.mp mem with rfl | rfl
      · exact ⟨rfl, rfl⟩
      · exact ⟨rfl, rfl⟩
  exact ⟨_, _, run, rfl, proper.mpr (by decide), rfl⟩

end Swap

end EventHub.RbTree
