import EventHub.RbTree.Adding
import EventHub.RbTree.EraseMemory

/-! `eh_rb_next` and `eh_rb_del` on the nodes in memory do what they do on trees. -/

namespace EventHub.RbTree
variable {m : RbMem} {c k : Color} {x s : ℕ} {left sr t : Tree Nat} {up path lower : Path Nat}
  {fuel : ℕ}

theorem rebalance_run (h : Sep m [.up path 0])
    (run : (if c = .black then eraseColor .nil path else some (zip .nil path)) = some t)
    (enough : path.length ≤ fuel) {rebalance : ℕ}
    (place : rebalance = if c = .black then path.ptr 0 else 0) :
    ∃ m', (if rebalance ≠ 0 then m.eraseColor fuel 0 rebalance else some m) = some m' ∧
      Represents m' t := by
  have whole : Sep m [.tree .nil (path.ptr 0), .up path (Tree.nil : Tree Nat).ptr] :=
    Sep.nil_iff.mpr h
  subst place
  by_cases black : c = .black
  · simp only [black, if_true] at run ⊢
    cases path with
    | nil =>
      cases run
      exact ⟨m, rfl, whole⟩
    | cons f up =>
      have pos : Path.ptr 0 (f :: up) ≠ 0 := (whole.get 1 rfl).1.1.1
      rw [if_pos pos]
      exact eraseColor_run whole (List.cons_ne_nil f up) run enough
  · simp only [black, if_false] at run ⊢
    cases run
    exact ⟨m, rfl, (Sep.zip_iff .nil path).mp whole⟩

namespace Sep

/-- The end of cases 2 and 3: the successor takes the node's place, its parent and its
colour, and its only child is blackened. -/
theorem replaceNode {a b child q v y : ℕ} (parent : ℕ) (h : Sep m [.seg lower child s,
      .cell s (Dir.right.cell (word q k) v a), .tree sr b, .cell x (Dir.right.cell
        (word (up.ptr 0) c) y left.ptr), .tree left x, .up up x])
    (pos : left.ptr ≠ 0) :
    (m.replaceNode x s parent sr.ptr).2 =
        (if sr.ptr ≠ 0 then 0 else if k = .black then parent else 0) ∧
      Sep (m.replaceNode x s parent sr.ptr).1 [.seg lower child s, .tree sr.setBlack parent,
        .cell s (Dir.right.cell (word (up.ptr 0) c) v left.ptr), .tree left s, .up up s] := by
  have tmp : m.child .left x = left.ptr := by
    rw [RbMem.child, h.node 3 rfl]
    exact Dir.cell_far ..
  have sides := h.setFar 1 rfl left.ptr
  have below := sides.setParentIf 4 rfl s
  rw [if_pos pos] at below
  have place := below.changeChild 5 3 rfl rfl s
  have done := ((place.blackenIf 2 rfl parent).setPc 1 rfl (word (up.ptr 0) c)).pick
    [0, 2, 1, 4, 5] (by decide)
  have black := congrArg (fun n => pcIsBlack n.parentAndColor) (place.node 1 rfl)
  have pc := below.node 3 rfl
  simp only [Dir.flip, Dir.cell_word, word_black] at done black pc
  simp only [RbMem.replaceNode, tmp, pc, Dir.cell_word, word_parent, RbMem.isBlack, black]
  by_cases null : sr.ptr = 0
  · simp only [RbMem.blackenIf, null, ne_eq, not_true_eq_false, if_false] at done ⊢
    exact ⟨by simp, done⟩
  · simp only [RbMem.blackenIf, null, ne_eq, not_false_eq_true, if_true] at done ⊢
    exact ⟨trivial, done⟩

end Sep

theorem zip_ptr (t : Tree Nat) (path : Path Nat) : (zip t path).ptr = path.top t.ptr := by
  induction path generalizing t with
  | nil => rfl
  | cons f up ih => exact ih _

theorem replaceNode_run {a b q y : ℕ} {s : Cursor Nat} (h : Sep m [.seg s.path s.right.ptr
      s.val, .cell s.val (Dir.right.cell (word q s.color) (s.path.top s.right.ptr) a),
      .tree s.right b, .cell x (Dir.right.cell (word (path.ptr 0) c) y left.ptr),
      .tree left x, .up path x])
    (pos : left.ptr ≠ 0) (run : replaceNode s c left path = some t)
    (enough : s.path.length + path.length < fuel) {r : RbMem × ℕ}
    (step : r = m.replaceNode x s.val (s.path.ptr s.val) s.right.ptr) :
    ∃ m', (if r.2 ≠ 0 then r.1.eraseColor fuel 0 r.2 else some r.1) = some m' ∧
      Represents m' t := by
  obtain ⟨rebalance, after⟩ := h.replaceNode (s.path.ptr s.val) pos
  have place : s.path.ptr s.val = Path.ptr 0 (s.path ++ ⟨.right, c, s.val, left⟩ :: path) :=
    (Path.ptr_append s.path (⟨.right, c, s.val, left⟩ :: path) 0).symm
  have upper : Sep r.1 [.up (⟨.right, c, s.val, left⟩ :: path) (s.path.top s.right.ptr),
      .seg s.path s.right.ptr s.val, .tree s.right.setBlack (s.path.ptr s.val)] := by
    subst step
    exact Sep.cons_iff.mpr (after.pick [2, 3, 4, 0, 1] (by decide))
  have whole : Sep r.1 [.up (s.path ++ ⟨.right, c, s.val, left⟩ :: path) s.right.ptr,
      .tree s.right.setBlack (s.path.ptr s.val)] :=
    Sep.append_iff.mpr (upper.pick [1, 0, 2] (by decide))
  rw [← step] at rebalance
  rw [place] at whole rebalance
  unfold RbTree.replaceNode at run
  cases shape : s.right with
  | nil =>
    rw [shape] at whole rebalance run
    refine rebalance_run (whole.pick [0] (by decide)) run ?_ rebalance
    rw [List.length_append, List.length_cons]
    omega
  | node k l z r' =>
    rw [shape] at whole rebalance run
    cases run
    have tree : Sep r.1 [.tree (.node .black l z r') _, .up _ z] :=
      whole.pick [1, 0] (by decide)
    have pos : (Tree.node k l z r').ptr ≠ 0 := (tree.get 0 rfl).1.1
    rw [if_pos pos] at rebalance
    rw [rebalance]
    exact ⟨r.1, rfl, (Sep.zip_iff (.node .black l z r') _).mp tree⟩

theorem findSuccessor_run {q y z : ℕ} {k' : Color} {l r r' : Tree Nat}
    (h : (Tree.node k' l z r').In m q) (enough : l.toList.length < fuel) :
    ∃ f up, (descendLeft k (.node k' l z r') y r path).path = f :: up ∧ f.dir = .left ∧
      m.findSuccessor fuel y z =
        some (f.val, (descendLeft k (.node k' l z r') y r path).val) := by
  induction l generalizing k k' y z r r' path q fuel with
  | nil =>
    obtain ⟨fuel, rfl⟩ : ∃ n, fuel = n + 1 := Nat.exists_eq_succ_of_ne_zero (by omega)
    refine ⟨⟨.left, k, y, r⟩, path, rfl, rfl, ?_⟩
    rw [RbMem.findSuccessor, RbMem.child, h.1.2]
    rfl
  | node k'' l' z' r'' ih =>
    obtain ⟨fuel, rfl⟩ : ∃ n, fuel = n + 1 := Nat.exists_eq_succ_of_ne_zero (by omega)
    have next : m.child .left z = z' := by
      rw [RbMem.child, h.1.2]
      rfl
    have pos : z' ≠ 0 := h.2.1.1.1
    simp only [RbMem.findSuccessor, next, if_pos pos]
    simp only [Tree.toList, List.length_append, List.length_cons] at enough
    exact ih h.2.1 (by omega)

theorem open_successor {s : Cursor Nat} (leaf : s.left = .nil)
    (h : Represents m (zip (.node c left x (zip s.tree s.path)) path)) :
    Sep m [.seg s.path s.val x, .cell s.val (Dir.right.cell (word (s.path.ptr x) s.color)
        s.right.ptr 0), .tree s.right s.val, .cell x (Dir.right.cell (word (path.ptr 0) c)
        (s.path.top s.val) left.ptr), .tree left x, .up path x] := by
  obtain ⟨k, l, y, r, lower⟩ := s
  simp only [Cursor.tree] at leaf h ⊢
  subst leaf
  have whole : Represents m (zip (.node k .nil y r) (lower ++ ⟨.right, c, x, left⟩ :: path)) := by
    rw [zip_append]
    exact h
  have bottom := (Sep.zip_iff _ _).mpr whole
  have successor := (Sep.node_iff .right).mp bottom
  have upper := Sep.append_iff.mp (successor.pick [3, 0, 1] (by decide))
  have node := Sep.cons_iff.mp (upper.pick [1, 0, 2, 3] (by decide))
  have parts := node.pick [3, 4, 5, 0, 1, 2] (by decide)
  rw [Path.ptr_append] at parts
  exact parts

theorem rbDel_both {k : Color} {l r : Tree Nat} {y : ℕ}
    (h : Represents m (zip (.node c left x (.node k l y r)) path)) (pos : left.ptr ≠ 0)
    (run : replaceNode (descendLeft k l y r []) c left path = some t)
    (enough : (zip (.node c left x (.node k l y r)) path).toList.length < fuel) :
    ∃ res, m.rbDel fuel x = some res ∧ ∃ m',
      (if res.2 ≠ 0 then res.1.eraseColor fuel 0 res.2 else some res.1) = some m' ∧
        Represents m' t := by
  obtain ⟨leaf, same, -⟩ := descendLeft_spec k l y r []
  have parts := (Sep.node_iff .right).mp ((Sep.zip_iff _ path).mpr h)
  have right : m.child .right x = y := by
    rw [RbMem.child, parts.node 0 rfl]
    exact Dir.cell_near ..
  have leftChild : m.child .left x = left.ptr := by
    rw [RbMem.child, parts.node 0 rfl]
    exact Dir.cell_far ..
  have tree : (Tree.node k l y r).In m x := parts.get 1 rfl
  have below : m.child .left y = l.ptr := by
    rw [RbMem.child, tree.1.2]
    rfl
  have successor : Sep m _ := open_successor leaf (by rw [same]; exact h)
  have size := (zip_nodes (.node c left x (.node k l y r)) path).length_eq
  have short := path.length_le
  simp only [Tree.toList, List.length_append, List.length_cons] at size
  simp only [RbMem.rbDel, right, leftChild, below, if_neg pos, if_neg tree.1.1]
  cases l with
  | nil =>
    have child2 : m.child .right y = r.ptr := by
      rw [RbMem.child, tree.1.2]
      rfl
    rw [if_pos (by rfl), child2]
    have start : Sep m [.seg [] r.ptr y, _, _, _, _, _] :=
      Sep.seg_nil_iff.mpr (Sep.seg_nil_iff.mp successor)
    exact ⟨_, rfl, replaceNode_run start pos run (by simp [descendLeft]; omega) rfl⟩
  | node k' l' y' r' =>
    have room : l'.toList.length < fuel := by
      simp only [Tree.toList, List.length_append, List.length_cons] at size
      omega
    obtain ⟨f, up, shape, dir, find⟩ : ∃ f up,
        (descendLeft k (.node k' l' y' r') y r []).path = f :: up ∧ f.dir = .left ∧
        m.findSuccessor fuel y y' =
          some (f.val, (descendLeft k (.node k' l' y' r') y r []).val) :=
      findSuccessor_run tree.2.1 room
    generalize descendLeft k (.node k' l' y' r') y r [] = s at *
    have depth : s.path.length + path.length < fuel := by
      have right := (zip_nodes s.tree s.path).length_eq
      have lower := s.path.length_le
      rw [same] at right
      simp only [zip, Tree.toList, List.length_append, List.length_cons] at right size
      omega
    have root : s.path.top s.val = y := by
      have := congrArg Tree.ptr same
      rwa [zip_ptr] at this
    have child2 : m.child .right s.val = s.right.ptr := by
      rw [RbMem.child, successor.node 1 rfl]
      exact Dir.cell_near ..
    have top : s.path.top s.right.ptr = y := by
      rw [← root, shape]
      rfl
    have somewhere : s.path ≠ [] := by
      rw [shape]
      exact List.cons_ne_nil f up
    have parent : s.path.ptr s.val = f.val := by
      rw [shape]
      rfl
    have lower := successor.segChild 0 rfl shape s.right.ptr
    rw [dir] at lower
    have right := lower.setNear 1 rfl y
    have child := right.segTop 0 rfl somewhere s.val
    rw [top] at child
    rw [← top] at child
    have result := replaceNode_run child pos run depth rfl
    rw [top, parent] at result
    rw [show (Tree.node k' l' y' r').ptr = y' from rfl, if_neg tree.2.1.1.1, find]
    simp only [Option.map_some, child2]
    exact ⟨_, rfl, result⟩

theorem rbDel_run {n : Cursor Nat} (h : Represents m (zip n.tree n.path))
    (run : rbDel n = some t) (enough : (zip n.tree n.path).toList.length < fuel) :
    ∃ res, m.rbDel fuel n.val = some res ∧ ∃ m',
      (if res.2 ≠ 0 then res.1.eraseColor fuel 0 res.2 else some res.1) = some m' ∧
        Represents m' t := by
  obtain ⟨color, left, x, right, path⟩ := n
  simp only [Cursor.tree] at h enough ⊢
  have parts := (Sep.node_iff .right).mp ((Sep.zip_iff _ path).mpr h)
  have rightChild : m.child .right x = right.ptr := by
    rw [RbMem.child, parts.node 0 rfl]
    exact Dir.cell_near ..
  have leftChild : m.child .left x = left.ptr := by
    rw [RbMem.child, parts.node 0 rfl]
    exact Dir.cell_far ..
  have pc : (m.node x).parentAndColor = word (path.ptr 0) color := by
    rw [parts.node 0 rfl, Dir.cell_word]
  have short := path.length_le
  have size := (zip_nodes (.node color left x right) path).length_eq
  simp only [List.length_append] at size
  cases left with
  | nil =>
    have moved := parts.changeChild 3 0 rfl rfl right.ptr
    simp only [RbMem.rbDel, rightChild, leftChild, pc, word_parent, Tree.ptr, if_true]
    cases right with
    | nil =>
      refine ⟨_, rfl, rebalance_run (moved.pick [3] (by decide)) run (by omega) ?_⟩
      rw [word_black]
      cases color <;> rfl
    | node c l y r =>
      cases run
      have root := (moved.setPcTree 1 rfl (path.ptr 0) color).pick [1, 3] (by decide)
      rw [if_pos (moved.get 1 rfl).1.1]
      exact ⟨_, rfl, _, rfl, (Sep.zip_iff _ path).mp root⟩
  | node c l y r =>
    have pos : y ≠ 0 := (parts.get 2 rfl).1.1
    cases right with
    | nil =>
      cases run
      have root := parts.setPcTree 2 rfl (path.ptr 0) color
      have moved := (root.changeChild 3 0 rfl rfl y).pick [2, 3] (by decide)
      simp only [RbMem.rbDel, rightChild, leftChild, pc, word_parent, Tree.ptr, if_true,
        if_neg pos]
      exact ⟨_, rfl, _, rfl, (Sep.zip_iff _ path).mp moved⟩
    | node c' l' y' r' => exact rbDel_both h pos run enough

theorem goLeft_run {q y : ℕ} {l r : Tree Nat} (h : (Tree.node k l y r).In m q)
    (enough : l.toList.length < fuel) (path : Path Nat) :
    m.goLeft fuel y = some (descendLeft k l y r path).val := by
  induction l generalizing k y r q fuel path with
  | nil =>
    obtain ⟨fuel, rfl⟩ : ∃ n, fuel = n + 1 := Nat.exists_eq_succ_of_ne_zero (by omega)
    rw [RbMem.goLeft, RbMem.child, h.1.2]
    rfl
  | node k' l' y' r' ih =>
    obtain ⟨fuel, rfl⟩ : ∃ n, fuel = n + 1 := Nat.exists_eq_succ_of_ne_zero (by omega)
    have next : m.child .left y = y' := by
      rw [RbMem.child, h.1.2]
      rfl
    have pos : y' ≠ 0 := h.2.1.1.1
    simp only [Tree.toList, List.length_append, List.length_cons] at enough
    rw [RbMem.goLeft, next, if_pos pos]
    exact ih h.2.1 (by omega) (⟨.left, k, y, r⟩ :: path)

theorem goUp_run (h : Sep m [.tree t (path.ptr 0), .up path t.ptr]) (pos : t.ptr ≠ 0)
    (enough : path.length < fuel) : m.goUp fuel t.ptr = some (path.nextUp.getD 0) := by
  induction path generalizing t fuel with
  | nil =>
    obtain ⟨fuel, rfl⟩ : ∃ n, fuel = n + 1 := Nat.exists_eq_succ_of_ne_zero (by omega)
    simp only [RbMem.goUp, (h.get 0 rfl).rbParent pos]
    rfl
  | cons f up ih =>
    obtain ⟨fuel, rfl⟩ : ∃ n, fuel = n + 1 := Nat.exists_eq_succ_of_ne_zero (by omega)
    have parts := Sep.cons_iff.mp (h.pick [1, 0] (by decide))
    have above := (Sep.zip_iff _ up).mpr ((Sep.zip_iff t (f :: up)).mp h)
    have parent : m.rbParent t.ptr = f.val := (h.get 0 rfl).rbParent pos
    obtain ⟨d, color, x, s⟩ := f
    have next := ih above (parts.pos 0 rfl) (by simpa using enough)
    simp only [RbMem.goUp, parent, RbMem.child, parts.node 0 rfl]
    cases d with
    | left =>
      have other : t.ptr ≠ s.ptr := by
        cases t with
        | nil => exact absurd rfl pos
        | node k l y r =>
          have opened := (Sep.node_iff .left).mp (parts.pick [3, 1] (by decide))
          exact (opened.ptr_ne 0 3 rfl rfl).symm
      rw [if_neg fun both => other (both.2.trans (Dir.cell_far ..))]
      rfl
    | right =>
      rw [if_pos ⟨parts.pos 0 rfl, (Dir.cell_near ..).symm⟩]
      exact next

theorem ehRbNext_run {n : Cursor Nat} (h : Represents m (zip n.tree n.path))
    (enough : (zip n.tree n.path).toList.length < fuel) :
    m.ehRbNext fuel n.val = some (n.ehRbNext.getD 0) := by
  obtain ⟨color, left, x, right, path⟩ := n
  simp only [Cursor.tree] at h enough ⊢
  have place := (Sep.zip_iff (.node color left x right) path).mpr h
  have parts := (Sep.node_iff .right).mp place
  have rightChild : m.child .right x = right.ptr := by
    rw [RbMem.child, parts.node 0 rfl]
    exact Dir.cell_near ..
  have linked : (m.node x).parentAndColor ≠ 4 * x := by
    rw [parts.node 0 rfl, Dir.cell_word]
    intro empty
    have self : path.ptr 0 = x := by
      have := congrArg pcParent empty
      rwa [word_parent, ← word_red, word_parent] at this
    cases path with
    | nil => exact parts.pos 0 rfl self.symm
    | cons f up =>
      have inPath : x ∈ layout.foot (.up (f :: up) x) := by
        rw [← self]
        simp [layout, Piece.foot, Path.nodes, Path.ptr]
      exact parts.disjoint (i := 0) (j := 3) rfl rfl (by decide) x
        (List.mem_singleton.mpr rfl) inPath
  have short := path.length_le
  have size := (zip_nodes (.node color left x right) path).length_eq
  rw [List.length_append] at size
  rw [RbMem.ehRbNext, if_neg linked, rightChild, Cursor.ehRbNext]
  cases right with
  | nil => exact goUp_run place (parts.pos 0 rfl) (by omega)
  | node k l y r =>
    simp only [Tree.toList, List.length_append, List.length_cons] at size
    have pos : (Tree.node k l y r).ptr ≠ 0 := (parts.get 1 rfl).1.1
    rw [if_pos pos]
    exact goLeft_run (parts.get 1 rfl) (by omega) []

theorem ehRbDel_refines {tree : RbRoot} {t t' : Root Nat} {next : Option Nat}
    (h : Refines tree t) (pos : x ≠ 0) (enough : t.nodes.length < fuel)
    (run : t.ehRbDel x = some (t', next)) :
    ∃ tree', tree.ehRbDel fuel x = some (tree', next.getD 0) ∧ Refines tree' t' ∧
      tree'.cmp = tree.cmp := by
  unfold Root.ehRbDel at run
  cases found : locate x t.tree [] with
  | none =>
    rw [found] at run
    cases run
  | some n =>
    obtain ⟨rfl, same⟩ := locate_spec found
    have represents : Represents tree.toRbMem (zip n.tree n.path) := by
      rw [same]
      exact h.represents
    have room : (zip n.tree n.path).toList.length < fuel := by
      rw [same]
      exact enough
    rw [found] at run
    obtain ⟨u, del, last⟩ := Option.map_eq_some_iff.mp run
    obtain ⟨res, unlink, m', rebalanced, after⟩ := rbDel_run represents del room
    have first : tree.rbLeftmost = n.val ↔ t.leftmost = some n.val := by
      rw [h.leftmost]
      cases t.leftmost with
      | none => simp [pos.symm]
      | some y => simp
    by_cases leftmost : t.leftmost = some n.val
    · rw [if_pos leftmost] at last
      cases last
      refine ⟨⟨m', n.ehRbNext.getD 0, tree.cmp⟩, ?_, ⟨after, rfl⟩, rfl⟩
      simp only [RbRoot.ehRbDel, if_pos (first.mpr leftmost), ehRbNext_run represents room,
        Option.map_some, Option.bind_some, unlink, rebalanced]
    · rw [if_neg leftmost] at last
      cases last
      refine ⟨⟨m', tree.rbLeftmost, tree.cmp⟩, ?_, ⟨after, h.leftmost⟩, rfl⟩
      simp only [RbRoot.ehRbDel, if_neg (leftmost ∘ first.mp), Option.bind_some, unlink,
        rebalanced, Option.map_some]
      rfl

end EventHub.RbTree
