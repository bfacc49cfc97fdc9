import EventHub.RbTree.Delete
import EventHub.RbTree.Pieces

/-! `____rb_erase_color` on the nodes in memory leaves the tree that the rebalancing of
trees gives. -/

namespace EventHub.RbTree
variable {m : RbMem} {d : Dir} {c : Color} {p s : ℕ} {t near far : Tree Nat}
  {up path : Path Nat}

namespace Sep

/-- Case 4. -/
theorem eraseRotate {a o q w : ℕ} (h : Sep m [.cell p (d.cell (word (up.ptr 0) c) t.ptr a),
      .tree t p, .cell s (d.cell w near.ptr far.ptr), .tree near o, .tree far q, .up up p])
    (pos : far.ptr ≠ 0) :
    Sep (m.eraseRotate d p s far.ptr)
      [.tree (d.join c (d.join .black t p near) s far.setBlack) (up.ptr 0), .up up s] := by
  have tmp2 : m.child d s = near.ptr := by
    rw [RbMem.child, h.node 2 rfl, Dir.cell_near]
  have parent := h.setFar 0 rfl near.ptr
  have sibling := parent.setNear 2 rfl p
  have black := sibling.blackenIf 4 rfl s
  have inner := black.setParentIf 3 rfl p
  have turned := inner.rotateSetParents 5 0 2 rfl rfl rfl (by decide) rfl .black
  have lower : Sep (m.eraseRotate d p s far.ptr) [.tree (d.join .black t p near) s,
      .cell s (d.cell (word (up.ptr 0) c) p far.ptr), .tree far.setBlack s, .up up s] := by
    refine join_iff.mpr ?_
    rw [RbMem.blackenIf, if_pos pos] at turned
    rw [RbMem.eraseRotate, tmp2]
    exact turned.pick [0, 1, 3, 2, 4, 5] (by decide)
  refine join_iff.mpr ?_
  rw [Tree.ptr_setBlack]
  exact lower.pick [1, 0, 2, 3] (by decide)

/-- Case 1: the parent goes down below the sibling, whose near child is the new sibling. -/
theorem eraseRedSibling {w : ℕ} (h : Sep m [.cell p (d.cell (word (up.ptr 0) c) t.ptr s),
      .tree t p, .cell s (d.cell w near.ptr far.ptr), .tree near s, .tree far s, .up up p])
    (pos : near.ptr ≠ 0) :
    Sep (m.eraseRedSibling d p s near.ptr) [.cell p (d.cell (word s .red) t.ptr near.ptr),
      .tree t p, .tree near.setBlack p, .up (⟨d, c, s, far⟩ :: up) p] := by
  have parent := h.setFar 0 rfl near.ptr
  have sibling := parent.setNear 2 rfl p
  have black := sibling.blackenIf 3 rfl p
  have turned := black.rotateSetParents 5 0 2 rfl rfl rfl (by decide) rfl .red
  rw [RbMem.blackenIf, if_pos pos] at turned
  have path : Sep (m.eraseRedSibling d p s near.ptr) [.up (⟨d, c, s, far⟩ :: up) p,
      .cell p (d.cell (word s .red) t.ptr near.ptr), .tree t p, .tree near.setBlack p] :=
    cons_iff.mpr (turned.pick [2, 4, 5, 0, 1, 3] (by decide))
  exact path.pick [1, 2, 3, 0] (by decide)

/-- Case 2: a red parent becomes black, a black one stays short of one. -/
theorem eraseFlip {w : ℕ} (h : Sep m [.cell p (d.cell (word (up.ptr 0) c) t.ptr s),
      .tree t p, .cell s (d.cell w near.ptr far.ptr), .tree near s, .tree far s, .up up p])
    {r : RbMem × Bool} (flip : r = if (m.setParentColor s p .red).isRed p
      then ((m.setParentColor s p .red).setBlack p, false)
      else (m.setParentColor s p .red, true)) :
    r.2 = (c == .black) ∧
      Sep r.1 [.tree (d.join .black t p (d.join .red near s far)) (up.ptr 0), .up up p] := by
  have painted := h.setPc 2 rfl (word p .red)
  have parent : (m.setParentColor s p .red).node p = d.cell (word (up.ptr 0) c) t.ptr s :=
    painted.node 0 rfl
  have fold : ∀ {m' : RbMem}, Sep m' [.cell p (d.cell (word (up.ptr 0) .black) t.ptr s),
      .tree t p, .cell s (d.cell (word p .red) near.ptr far.ptr), .tree near s, .tree far s,
      .up up p] →
      Sep m' [.tree (d.join .black t p (d.join .red near s far)) (up.ptr 0), .up up p] := by
    intro m' parts
    have lower : Sep m' [.tree (d.join .red near s far) p,
        .cell p (d.cell (word (up.ptr 0) .black) t.ptr s), .tree t p, .up up p] :=
      join_iff.mpr (parts.pick [2, 3, 4, 0, 1, 5] (by decide))
    exact join_iff.mpr (lower.pick [1, 2, 0, 3] (by decide))
  rw [RbMem.isRed, RbMem.isBlack, parent, Dir.cell_word, word_black] at flip
  cases c with
  | red =>
    subst flip
    refine ⟨rfl, fold ?_⟩
    change Sep ((m.setParentColor s p .red).setBlack p) _
    rw [RbMem.setBlack, parent, Dir.cell_word, word_setBlack]
    exact painted.setPc 0 rfl (word (up.ptr 0) .black)
  | black =>
    subst flip
    exact ⟨rfl, fold painted⟩

/-- Case 3: the near child of the sibling goes up to it, and case 4 follows. -/
theorem eraseInner {y : ℕ} {k : Color} {l r : Tree Nat}
    (h : Sep m [.cell p (d.cell (word (up.ptr 0) c) t.ptr s), .tree t p,
      .cell s (d.cell (word p k) y far.ptr), .tree (.node .red l y r) s, .tree far s,
      .up up p]) {m' : RbMem}
    (inner : m' = (((m.setChild d s (m.child d.flip y)).setChild d.flip y s).setChild d.flip
      p y).blackenIf (m.child d.flip y) s) :
    Sep (m'.eraseRotate d p y s) [.tree (d.join c (d.join .black t p (d.pick l r)) y
      (d.join .black (d.pick r l).setBlack s far)) (up.ptr 0), .up up y] := by
  have parts := (node_iff d).mp (h.pick [3, 0, 1, 2, 4, 5] (by decide))
  have tmp1 : m.child d.flip y = (d.pick r l).ptr := by
    rw [RbMem.child, parts.node 0 rfl, Dir.cell_far]
  have sibling := parts.setNear 5 rfl (d.pick r l).ptr
  have top := sibling.setFar 0 rfl s
  have parent := top.setFar 3 rfl y
  have black := parent.blackenIf 2 rfl s
  rw [← tmp1, ← inner] at black
  -- the old sibling is the far child of the new one
  have lower : Sep m' [.tree (d.join k (d.pick r l).setBlack s far) p,
      .cell p (d.cell (word (up.ptr 0) c) t.ptr y), .tree t p,
      .cell y (d.cell (word s .red) (d.pick l r).ptr s), .tree (d.pick l r) y, .up up p] := by
    refine join_iff.mpr ?_
    rw [Tree.ptr_setBlack, ← tmp1]
    exact black.pick [5, 2, 6, 3, 4, 0, 1, 7] (by decide)
  have pos : (d.join k (d.pick r l).setBlack s far).ptr ≠ 0 := h.pos 2 rfl
  have rotated : Sep (m'.eraseRotate d p y (d.join k (d.pick r l).setBlack s far).ptr)
      [.tree (d.join c (d.join .black t p (d.pick l r)) y
        (d.join k (d.pick r l).setBlack s far).setBlack) (up.ptr 0), .up up y] :=
    eraseRotate (lower.pick [1, 2, 3, 4, 0, 5] (by decide)) pos
  exact rotated

theorem eraseSibling {k : Color} (h : Sep m [.cell p (d.cell (word (up.ptr 0) c) t.ptr s),
      .tree t p, .cell s (d.cell (word p k) near.ptr far.ptr), .tree near s, .tree far s,
      .up up p]) :
    (m.eraseSibling d p s).2 = (RbTree.eraseSibling d c t p near s far).2 ∧
      Sep (m.eraseSibling d p s).1 [.tree (RbTree.eraseSibling d c t p near s far).1
        (up.ptr 0), .up up (RbTree.eraseSibling d c t p near s far).1.ptr] := by
  have tmp1 : m.child d.flip s = far.ptr := by
    rw [RbMem.child, h.node 2 rfl, Dir.cell_far]
  have tmp2 : m.child d s = near.ptr := by
    rw [RbMem.child, h.node 2 rfl, Dir.cell_near]
  simp only [RbMem.eraseSibling, tmp1, tmp2, h.black_iff 4 rfl, h.black_iff 3 rfl]
  by_cases red : far.isRed = true
  · have pos := ((h.red_iff 4 rfl).mpr red).1
    simp only [RbTree.eraseSibling, red, Bool.true_eq_false, if_false, if_true]
    exact ⟨trivial, h.eraseRotate pos⟩
  rw [Bool.not_eq_true] at red
  simp only [RbTree.eraseSibling, red, Bool.false_eq_true, if_false, if_true]
  cases near with
  | nil => exact h.eraseFlip rfl
  | node k' l y r =>
    cases k' with
    | red => exact ⟨rfl, h.eraseInner rfl⟩
    | black => exact h.eraseFlip rfl

theorem open_sibling {x : ℕ} {k : Color} {l r : Tree Nat}
    (h : Sep m [.tree t (Path.ptr 0 (⟨d, c, p, .node k l x r⟩ :: up)),
      .up (⟨d, c, p, .node k l x r⟩ :: up) t.ptr]) :
    Sep m [.cell p (d.cell (word (up.ptr 0) c) t.ptr x), .tree t p,
      .cell x (d.cell (word p k) (d.pick l r).ptr (d.pick r l).ptr), .tree (d.pick l r) x,
      .tree (d.pick r l) x, .up up p] := by
  have parent := cons_iff.mp (h.pick [1, 0] (by decide))
  have sibling := (node_iff d).mp (parent.pick [1, 0, 2, 3] (by decide))
  exact sibling.pick [3, 5, 0, 1, 2, 4] (by decide)

theorem eraseColor_round {x : ℕ} {k : Color} {l r : Tree Nat} (fuel : ℕ)
    (h : Sep m [.cell p (d.cell (word (up.ptr 0) c) t.ptr x), .tree t p,
      .cell x (d.cell (word p k) (d.pick l r).ptr (d.pick r l).ptr), .tree (d.pick l r) x,
      .tree (d.pick r l) x, .up up p])
    (nephew : k = .red → (d.pick l r).ptr ≠ 0) {res : RbMem × Bool}
    (step : res = if k = .red
      then (m.eraseRedSibling d p x (d.pick l r).ptr).eraseSibling d p (d.pick l r).ptr
      else m.eraseSibling d p x) :
    m.eraseColor (fuel + 1) t.ptr p =
      if res.2 then
        if res.1.rbParent p ≠ 0 then res.1.eraseColor fuel p (res.1.rbParent p)
        else some res.1
      else some res.1 := by
  have side := RbMem.turn (h.node 0 rfl) (h.ptr_ne 2 1 rfl rfl).symm
  have sibling : m.child d.flip p = x := by
    rw [RbMem.child, h.node 0 rfl, Dir.cell_far]
  have near : m.child d x = (d.pick l r).ptr := by
    rw [RbMem.child, h.node 2 rfl, Dir.cell_near]
  have red : m.isRed x = true ↔ k = .red := by
    rw [RbMem.isRed, RbMem.isBlack, h.node 2 rfl, Dir.cell_word, word_black]
    cases k <;> decide
  have follows : ¬(k = .red ∧ (d.pick l r).ptr = 0) := fun both => nephew both.1 both.2
  subst step
  rw [RbMem.eraseColor, side]
  simp only [sibling, near, red, if_neg (h.pos 2 rfl), if_neg follows]

end Sep

theorem Tree.In.rbParent {q : ℕ} (h : t.In m q) (pos : t.ptr ≠ 0) : m.rbParent t.ptr = q := by
  cases t with
  | nil => exact absurd rfl pos
  | node k l x r =>
    rw [Tree.ptr, RbMem.rbParent, h.1.2]
    exact word_parent ..

theorem eraseSibling_short {u : Tree Nat}
    (h : eraseSibling d c t p near s far = (u, true)) : u.ptr = p := by
  unfold eraseSibling at h
  split at h
  · cases h
  split at h
  · cases h
  · rw [← (Prod.mk.inj h).1]
    rfl

theorem eraseSibling_red : (eraseSibling d .red t p near s far).2 = false := by
  unfold eraseSibling
  split
  · rfl
  split <;> rfl

/-- The loop does what the rebalancing of trees does, at a place one black short. -/
theorem eraseColor_run {t' : Tree Nat} {fuel : ℕ}
    (h : Sep m [.tree t (path.ptr 0), .up path t.ptr]) (below : path ≠ [])
    (run : eraseColor t path = some t') (enough : path.length ≤ fuel) :
    ∃ m', m.eraseColor fuel t.ptr (path.ptr 0) = some m' ∧ Represents m' t' := by
  fun_induction eraseColor t path generalizing m fuel with
  | case1 t => exact absurd rfl below
  | case2 t d c p up => cases run
  | case3 t d c p l s r up u eq ih =>
    obtain ⟨fuel, rfl⟩ : ∃ n, fuel = n + 1 :=
      Nat.exists_eq_succ_of_ne_zero (by simp at enough; omega)
    have parts := h.open_sibling
    obtain ⟨short, after⟩ := parts.eraseSibling
    rw [eq] at short after
    have root := eraseSibling_short eq
    have above := (after.get 0 rfl).rbParent (by rw [root]; exact parts.pos 0 rfl)
    rw [root] at above
    rw [Path.ptr, parts.eraseColor_round fuel (by simp) rfl,
      if_neg (by decide : ¬Color.black = Color.red), if_pos short, above]
    cases up with
    | nil =>
      cases run
      exact ⟨_, rfl, after⟩
    | cons f up =>
      have pos : Path.ptr 0 (f :: up) ≠ 0 := (after.get 1 rfl).1.1.1
      have next := ih after (List.cons_ne_nil f up) run (by simpa using enough)
      rw [root] at next
      rw [if_pos pos]
      exact next
  | case4 t d c p l s r up u short eq ends =>
    obtain ⟨fuel, rfl⟩ : ∃ n, fuel = n + 1 :=
      Nat.exists_eq_succ_of_ne_zero (by simp at enough; omega)
    cases run
    have parts := h.open_sibling
    obtain ⟨isShort, after⟩ := parts.eraseSibling
    rw [eq] at isShort after
    rw [Path.ptr, parts.eraseColor_round fuel (by simp) rfl,
      if_neg (by decide : ¬Color.black = Color.red), if_neg (by rw [isShort]; exact ends)]
    exact ⟨_, rfl, (Sep.zip_iff u up).mp after⟩
  | case5 t d c p l s r up null => cases run
  | case6 t d c p l s r up color l' s' r' node u short eq =>
    obtain ⟨fuel, rfl⟩ : ∃ n, fuel = n + 1 :=
      Nat.exists_eq_succ_of_ne_zero (by simp at enough; omega)
    cases run
    have parts := h.open_sibling
    have nephew : (d.pick l r).ptr ≠ 0 := by
      have tree := parts.get 3 rfl
      rw [node] at tree ⊢
      exact tree.1.1
    have lower := parts.eraseRedSibling nephew
    rw [node, Tree.setBlack] at lower
    have opened := (Sep.node_iff d).mp (lower.pick [2, 0, 1, 3] (by decide))
    have place : Sep _ [.cell p (d.cell (word (Path.ptr 0 (⟨d, c, s, d.pick r l⟩ :: up)) .red)
        t.ptr s'), _, _, _, _, _] := opened.pick [3, 4, 0, 1, 2, 5] (by decide)
    obtain ⟨ends, after⟩ := Sep.eraseSibling place
    rw [eraseSibling_red] at ends
    rw [eq] at after
    have last : ((m.eraseRedSibling d p s (d.pick l r).ptr).eraseSibling d p
        (d.pick l r).ptr).2 = false := by
      rw [node]
      exact ends
    rw [Path.ptr, parts.eraseColor_round fuel (fun _ => nephew) rfl, if_pos rfl, last,
      if_neg Bool.false_ne_true, node]
    exact ⟨_, rfl, (Sep.zip_iff u (⟨d, c, s, d.pick r l⟩ :: up)).mp after⟩

end EventHub.RbTree
