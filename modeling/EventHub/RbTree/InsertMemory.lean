import EventHub.RbTree.Insert
import EventHub.RbTree.Pieces

/-! `__rb_insert` on the nodes in memory leaves the tree that the rebalancing of trees
gives. -/

namespace EventHub.RbTree
variable {m : RbMem} {d : Dir} {c : Color} {g q x : ℕ} {l r s u near : Tree Nat}
  {up path : Path Nat}

namespace Sep

theorem open_two {t : Tree Nat} {p : ℕ} {k : Color} {e : Dir}
    (h : Sep m [.tree t (Path.ptr 0 (⟨e, k, p, s⟩ :: ⟨d, c, g, u⟩ :: up)),
      .up (⟨e, k, p, s⟩ :: ⟨d, c, g, u⟩ :: up) t.ptr]) :
    Sep m [.cell g (d.cell (word (up.ptr 0) c) p u.ptr), .tree u g, .up up g,
      .cell p (e.cell (word g k) t.ptr s.ptr), .tree s p, .tree t p] := by
  have lower := cons_iff.mp (h.pick [1, 0] (by decide))
  exact cons_iff.mp (lower.pick [2, 0, 1, 3] (by decide))

/-- Case 3. -/
theorem insertRotate {a b o w : ℕ} (h : Sep m [.cell g (d.cell (word (up.ptr 0) c) a u.ptr),
      .tree s o, .tree u g, .cell q (d.cell w near.ptr b), .tree near q, .up up g]) :
    Sep (m.insertRotate d g q s.ptr)
      [.tree (d.join c near q (d.join .red s.setBlack g u)) (up.ptr 0), .up up q] := by
  have child := h.setNear 0 rfl s.ptr
  have top := child.setFar 3 rfl g
  have sibling := top.blackenIf 1 rfl g
  have turned := sibling.rotateSetParents 5 0 3 rfl rfl rfl (by decide) rfl .red
  have lower : Sep (m.insertRotate d g q s.ptr) [.tree (d.join .red s.setBlack g u) q,
      .cell q (d.cell (word (up.ptr 0) c) near.ptr g), .tree near q, .up up q] := by
    refine join_iff.mpr ?_
    rw [Tree.ptr_setBlack]
    exact turned
  refine join_iff.mpr ?_
  exact lower.pick [1, 2, 0, 3] (by decide)

theorem rbInsert_red {ps : List Piece} {n : RbNode} {p : ℕ}
    (h : Sep m (.cell g (d.cell (word (up.ptr 0) c) p u.ptr) :: .tree u g :: .up up g ::
      .cell p n :: ps)) (red : n.parentAndColor = word g .red) (fuel x : ℕ) :
    m.rbInsert (fuel + 1) x p =
      if u.isRed then
        (m.insertFlip g p u.ptr).1.rbInsert fuel g (m.insertFlip g p u.ptr).2
      else if x = n.child d.flip then
        some ((m.insertInner d p x).insertRotate d g x ((m.insertInner d p x).child d.flip x))
      else some (m.insertRotate d g p (n.child d.flip)) := by
  have side := RbMem.turn (h.node 0 rfl) (h.ptr_ne 3 1 rfl rfl)
  have uncle := h.red_iff 1 rfl
  have black : m.isBlack p = false := by
    rw [RbMem.isBlack, h.node 3 rfl, red, word_black]
    rfl
  have parent : m.rbRedParent p = g := by
    rw [RbMem.rbRedParent, h.node 3 rfl, red, ← pcParent, word_parent]
  have far : m.child d.flip g = u.ptr := by
    rw [RbMem.child, h.node 0 rfl, Dir.cell_far]
  have inner : m.child d.flip p = n.child d.flip := by
    rw [RbMem.child, h.node 3 rfl]
  rw [RbMem.rbInsert, if_neg (h.pos 3 rfl), black, parent]
  simp only [Bool.false_eq_true, if_false, if_neg (h.pos 0 rfl), side, far, inner, uncle]

/-- Case 1: the grandparent is a red node in its place. -/
theorem insertFlip {p a : ℕ} {e : Dir} (h : Sep m [.cell g (d.cell (word (up.ptr 0) c) p u.ptr),
      .tree u g, .up up g, .cell p (e.cell a near.ptr s.ptr), .tree s p, .tree near p])
    (red : u.isRed = true) :
    (m.insertFlip g p u.ptr).2 = up.ptr 0 ∧ Sep (m.insertFlip g p u.ptr).1
      [.tree (d.join .red (e.join .black near p s) g u.setBlack) (up.ptr 0), .up up g] := by
  have uncle := (h.red_iff 1 rfl).mpr red
  have black := h.blackenIf 1 rfl g
  rw [RbMem.blackenIf, if_pos uncle.1] at black
  have parent := black.setPc 3 rfl (word g .black)
  have above : ((m.setParentColor u.ptr g .black).setParentColor p g .black).rbParent g =
      up.ptr 0 := by
    rw [RbMem.rbParent, RbMem.setParentColor, parent.node 0 rfl]
    exact word_parent ..
  have top := parent.setPc 0 rfl (word (up.ptr 0) .red)
  refine ⟨above, ?_⟩
  rw [RbMem.insertFlip]
  simp only [above]
  have lower : Sep _ [.tree (e.join .black near p s) g, _, _, _] :=
    join_iff.mpr (top.pick [3, 5, 4, 0, 1, 2] (by decide))
  refine join_iff.mpr ?_
  rw [Tree.ptr_setBlack]
  exact lower.pick [1, 0, 2, 3] (by decide)

/-- Case 2: the new node comes between its parent and its grandparent. -/
theorem insertInner {p a o : ℕ} {n : RbNode}
    (h : Sep m [.cell p (d.cell o s.ptr a), .tree s p,
      .cell x (d.cell (word p .red) near.ptr u.ptr), .tree near x, .tree u x,
      .tree r g, .cell g n, .up up g]) :
    (m.insertInner d p x).child d.flip x = u.ptr ∧
      Sep (m.insertInner d p x) [.cell g n, .tree u x, .tree r g,
        .cell x (d.cell (word p .red) (d.join .red s p near.setBlack).ptr u.ptr),
        .tree (d.join .red s p near.setBlack) x, .up up g] := by
  have child : m.child d x = near.ptr := by
    rw [RbMem.child, h.node 2 rfl, Dir.cell_near]
  have lower := h.setFar 0 rfl near.ptr
  have upper := lower.setNear 2 rfl p
  have inner := upper.blackenIf 3 rfl p
  have parent := inner.setPc 0 rfl (word x .red)
  have lower : Sep (m.insertInner d p x) [.tree (d.join .red s p near.setBlack) x,
      .cell x (d.cell (word p .red) p u.ptr), .tree u x, .tree r g, .cell g n, .up up g] := by
    refine join_iff.mpr ?_
    rw [RbMem.insertInner, Tree.ptr_setBlack, child]
    exact parent.pick [0, 1, 3, 2, 4, 5, 6, 7] (by decide)
  refine ⟨?_, lower.pick [4, 2, 3, 1, 0, 5] (by decide)⟩
  rw [RbMem.child, lower.node 1 rfl, Dir.cell_far]

end Sep

/-- The loop does what the rebalancing of trees does, at the red node `x` in its place. -/
theorem rbInsert_run {t : Tree Nat} {fuel : ℕ} (h : Sep m [.tree (.node .red l x r)
      (path.ptr 0), .up path x]) (run : rbInsert l x r path = some t)
    (enough : path.length < fuel) :
    ∃ m', m.rbInsert fuel x (path.ptr 0) = some m' ∧ Represents m' t := by
  obtain ⟨fuel, rfl⟩ := Nat.exists_eq_succ_of_ne_zero (Nat.ne_of_gt (Nat.zero_lt_of_lt enough))
  fun_induction rbInsert l x r path generalizing m fuel with
  | case1 l x r =>
    cases run
    exact ⟨_, rfl, h.setPcTree 0 rfl 0 .black⟩
  | case2 l x r d p s up =>
    cases run
    have parts := Sep.cons_iff.mp (h.pick [1, 0] (by decide))
    refine ⟨m, ?_, (Sep.zip_iff (.node .red l x r) _).mp h⟩
    have black : m.isBlack p = true := by
      rw [RbMem.isBlack, parts.node 0 rfl]
      exact word_black ..
    rw [Path.ptr, RbMem.rbInsert, if_neg (parts.pos 0 rfl), if_pos black]
  | case3 l x r d p s => cases run
  | case4 l x r d p s e c g u up uncle ih =>
    have parts := h.open_two
    obtain ⟨above, flipped⟩ := parts.insertFlip uncle
    rw [Path.ptr, parts.rbInsert_red rfl, if_pos uncle, above]
    obtain ⟨rest, rfl⟩ : ∃ rest, fuel = rest + 1 :=
      Nat.exists_eq_succ_of_ne_zero (by simp at enough; omega)
    exact ih flipped run rest (by simp at enough ⊢; omega)
  | case5 l x r p s e c g u up uncle =>
    cases run
    have parts := h.open_two
    have ne : x ≠ s.ptr := by
      have opened := (Sep.node_iff e).mp (parts.pick [5, 4] (by decide))
      exact (opened.ptr_ne 0 3 rfl rfl).symm
    rw [Path.ptr, parts.rbInsert_red rfl, if_neg uncle, Dir.cell_far, if_neg ne]
    have rotated := Sep.insertRotate (parts.pick [0, 4, 1, 3, 5, 2] (by decide))
    exact ⟨_, rfl, (Sep.zip_iff _ up).mp rotated⟩
  | case6 l x r d p s e c g u up uncle ne =>
    cases run
    have parts := h.open_two
    obtain rfl : d = e.flip := by
      cases d <;> cases e <;> first | rfl | exact absurd rfl ne
    rw [Path.ptr, parts.rbInsert_red rfl, if_neg uncle, Dir.cell_near]
    rw [show (Tree.node .red l x r).ptr = x from rfl, if_pos rfl]
    rw [Dir.cell_flip] at parts
    have opened := (Sep.node_iff e).mp (parts.pick [5, 0, 1, 2, 3, 4] (by decide))
    obtain ⟨far, inner⟩ := Sep.insertInner (opened.pick [6, 7, 0, 1, 2, 4, 3, 5] (by decide))
    rw [far]
    have rotated := inner.insertRotate
    exact ⟨_, rfl, (Sep.zip_iff _ up).mp rotated⟩

end EventHub.RbTree
