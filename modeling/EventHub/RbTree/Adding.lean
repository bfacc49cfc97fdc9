import EventHub.RbTree.InsertMemory

/-! `eh_rb_add`, `eh_rb_find_add`, `eh_rb_find_new_add` and `eh_rb_match_find` on the nodes
in memory do what they do on trees. -/

namespace EventHub.RbTree

def turnOf (c : Int) : Ordering := if c < 0 then .lt else if 0 < c then .gt else .eq

theorem zip_nodes {α : Type} (t : Tree α) (path : Path α) :
    (zip t path).toList.Perm (t.toList ++ path.nodes) := by
  induction path generalizing t with
  | nil => simp [zip, Path.nodes]
  | cons f up ih =>
    refine (ih _).trans ?_
    obtain ⟨d, c, x, s⟩ := f
    cases d
    · simp [Dir.join, Dir.pick, Tree.toList, Path.nodes]
    · refine List.Perm.trans ?_ (List.perm_append_comm_assoc ..)
      simp [Dir.join, Dir.pick, Tree.toList]

theorem Path.length_le {α : Type} (path : Path α) : path.length ≤ path.nodes.length := by
  induction path with
  | nil => exact Nat.le_refl 0
  | cons f up ih =>
    simp only [nodes, List.length_cons, List.length_append, List.cons_append]
    omega

theorem descend_run {m : RbMem} (c : ℕ → Int) {t : Tree Nat} {path : Path Nat}
    {leftmost : Bool} {fuel : ℕ} (h : Sep m [.tree t (path.ptr 0), .up path t.ptr])
    (enough : t.toList.length < fuel) :
    m.descend c fuel path.link (path.ptr 0) leftmost =
      some ((descend (fun y => turnOf (c y)) t path leftmost).map id
        fun place => (place.1.link, place.1.ptr 0, place.2)) := by
  obtain ⟨fuel, rfl⟩ := Nat.exists_eq_succ_of_ne_zero (Nat.ne_of_gt (Nat.zero_lt_of_lt enough))
  induction t generalizing path leftmost fuel with
  | nil =>
    rw [RbMem.descend, h.deref 1 rfl]
    rfl
  | node color l y r ihl ihr =>
    have pos := (h.get 0 rfl).1.1
    have whole := (Sep.zip_iff _ path).mp h
    simp only [Tree.toList, List.length_append, List.length_cons] at enough
    obtain ⟨rest, rfl⟩ : ∃ rest, fuel = rest + 1 :=
      Nat.exists_eq_succ_of_ne_zero (by omega)
    rw [RbMem.descend, h.deref 1 rfl, descend, Tree.ptr, if_neg pos]
    simp only [turnOf]
    by_cases lt : c y < 0
    · simp only [lt, if_true]
      exact ihl ((Sep.zip_iff l (⟨.left, color, y, r⟩ :: path)).mpr whole) rest (by omega)
    by_cases gt : 0 < c y
    · simp only [lt, gt, if_true, if_false]
      exact ihr ((Sep.zip_iff r (⟨.right, color, y, l⟩ :: path)).mpr whole) rest (by omega)
    · simp only [lt, gt, if_false]
      rfl

structure Refines (tree : RbRoot) (t : Root Nat) : Prop where
  represents : Represents tree.toRbMem t.tree
  leftmost : tree.rbLeftmost = t.leftmost.getD 0

theorem rbLinkNode_run {m : RbMem} {x : ℕ} {path : Path Nat} (h : Sep m [.up path 0])
    (pos : x ≠ 0) (free : x ∉ path.nodes) :
    Sep (m.rbLinkNode x (path.ptr 0) path.link)
      [.tree (.node .red .nil x .nil) (path.ptr 0), .up path x] := by
  have outside : x ∉ layout.places [.up path 0] := by
    simpa [Library.Layout.places, layout, Piece.foot] using And.intro pos free
  have kept : Sep (m.write x ⟨4 * path.ptr 0, 0, 0⟩) [.up path 0] := by
    refine h.keep fun a mem => ⟨Function.update_of_ne ?_ .., fun _ => rfl⟩
    rintro rfl
    exact outside mem
  have cell : Sep (m.write x ⟨4 * path.ptr 0, 0, 0⟩)
      [.cell x (Dir.left.cell (word (path.ptr 0) .red) 0 0), .up path 0] := by
    refine kept.cons ⟨pos, Function.update_self ..⟩ (List.nodup_singleton x) fun a mem => ?_
    rw [List.mem_singleton.mp mem]
    exact outside
  have linked := (cell.assign 1 rfl x).pick [1, 0] (by decide)
  have leaves : Sep _ [.tree .nil x, .tree .nil x, .up path x, .cell x _] :=
    Sep.nil_iff.mpr (Sep.nil_iff.mpr linked)
  exact (Sep.node_iff .left).mpr (leaves.pick [3, 0, 1, 2] (by decide))

variable {tree tree' : RbRoot} {t t' : Root Nat} {fuel x : ℕ}

theorem link_refines {path : Path Nat} {leftmost : Bool} (h : Refines tree t)
    (same : zip .nil path = t.tree) (pos : x ≠ 0) (free : x ∉ t.nodes)
    (run : t.link x path leftmost = some t') (enough : t.nodes.length < fuel) :
    ∃ tree', tree.link fuel x (path.link, path.ptr 0, leftmost) = some tree' ∧
      Refines tree' t' ∧ tree'.cmp = tree.cmp := by
  have represents := h.represents
  rw [← same] at represents
  have place := ((Sep.zip_iff .nil path).mpr represents).pick [1] (by decide)
  have nodes : t.nodes.Perm path.nodes := by
    rw [Root.nodes, ← same]
    exact zip_nodes .nil path
  have linked := rbLinkNode_run place pos fun mem => free (nodes.mem_iff.mpr mem)
  obtain ⟨result, insert, rfl⟩ := Option.map_eq_some_iff.mp run
  have short : path.length < fuel :=
    Nat.lt_of_le_of_lt (path.length_le.trans nodes.length_eq.ge) enough
  obtain ⟨m, run, after⟩ := rbInsert_run linked insert short
  refine ⟨⟨m, if leftmost then x else tree.rbLeftmost, tree.cmp⟩, ?_, ⟨after, ?_⟩, rfl⟩
  · have red : (tree.rbLinkNode x (path.ptr 0) path.link).rbRedParent x = path.ptr 0 := by
      rw [RbMem.rbRedParent, ((Sep.node_iff .left).mp linked).node 0 rfl]
      exact word_parent ..
    rw [RbRoot.link, red, run]
    rfl
  · cases leftmost
    · exact h.leftmost
    · rfl

theorem descend_root (h : Refines tree t) (c : ℕ → Int) (enough : t.nodes.length < fuel) :
    tree.descend c fuel .root 0 true =
      some ((descend (fun y => turnOf (c y)) t.tree [] true).map id
        fun place => (place.1.link, place.1.ptr 0, place.2)) := by
  have whole : Sep tree.toRbMem [.tree t.tree (Path.ptr 0 []), .up [] t.tree.ptr] :=
    h.represents
  exact descend_run c whole enough

theorem ehRbAdd_refines {first : Bool} (h : Refines tree t) (pos : x ≠ 0)
    (free : x ∉ t.nodes) (enough : t.nodes.length < fuel)
    (run : t.ehRbAdd (fun y => tree.cmp x y < 0) x = some (t', first)) :
    ∃ tree', tree.ehRbAdd fuel x = some (tree', if first then x else 0) ∧
      Refines tree' t' ∧ tree'.cmp = tree.cmp := by
  have turns : (fun y => turnOf (if tree.cmp x y < 0 then -1 else 1)) =
      fun y => if tree.cmp x y < 0 then Ordering.lt else .gt := by
    funext y
    split <;> rfl
  rw [RbRoot.ehRbAdd, descend_root h _ enough, turns]
  rw [Root.ehRbAdd] at run
  simp only [decide_eq_true_eq] at run
  cases found : descend (fun y => if tree.cmp x y < 0 then Ordering.lt else .gt) t.tree []
      true with
  | inl y =>
    rw [found] at run
    cases run
  | inr place =>
    rw [found] at run
    obtain ⟨linked, link, pair⟩ := Option.map_eq_some_iff.mp run
    cases pair
    have same := (descend_place (.start _) found).2
    obtain ⟨tree', run, after⟩ := link_refines h same pos free link enough
    refine ⟨tree', ?_, after⟩
    simp only [Sum.map_inr, Option.bind_some, run, Option.map_some]

section FindNewAdd
variable {c : ℕ → Int} {newNode : ℕ}

theorem ehRbFindNewAdd_found {y : ℕ} (h : Refines tree t) (enough : t.nodes.length < fuel)
    (found : t.ehRbMatchFind (fun y => turnOf (c y)) = some y) :
    tree.ehRbFindNewAdd fuel c newNode = some (tree, y) := by
  rw [Root.ehRbMatchFind, Root.matchFind_eq _ t.tree [] true] at found
  rw [RbRoot.ehRbFindNewAdd, descend_root h c enough, Sum.getLeft?_eq_some_iff.mp found]
  rfl

theorem ehRbFindNewAdd_null (h : Refines tree t) (enough : t.nodes.length < fuel)
    (missing : t.ehRbMatchFind (fun y => turnOf (c y)) = none) :
    tree.ehRbFindNewAdd fuel c 0 = some (tree, 0) := by
  rw [Root.ehRbMatchFind, Root.matchFind_eq _ t.tree [] true] at missing
  rw [RbRoot.ehRbFindNewAdd, descend_root h c enough]
  cases place : descend (fun y => turnOf (c y)) t.tree [] true with
  | inl y =>
    rw [place] at missing
    cases missing
  | inr place => rfl

theorem ehRbFindNewAdd_refines (h : Refines tree t) (pos : x ≠ 0) (free : x ∉ t.nodes)
    (enough : t.nodes.length < fuel)
    (missing : t.ehRbMatchFind (fun y => turnOf (c y)) = none)
    (run : t.ehRbFindNewAdd (fun y => turnOf (c y)) (some x) = some (t', some x)) :
    ∃ tree', tree.ehRbFindNewAdd fuel c x = some (tree', x) ∧ Refines tree' t' ∧
      tree'.cmp = tree.cmp := by
  rw [Root.ehRbMatchFind, Root.matchFind_eq _ t.tree [] true] at missing
  rw [RbRoot.ehRbFindNewAdd, descend_root h c enough]
  rw [Root.ehRbFindNewAdd] at run
  cases place : descend (fun y => turnOf (c y)) t.tree [] true with
  | inl y =>
    rw [place] at missing
    cases missing
  | inr free' =>
    rw [place] at run
    obtain ⟨linked, link, pair⟩ := Option.map_eq_some_iff.mp run
    cases pair
    have same := (descend_place (.start _) place).2
    obtain ⟨tree', run, after⟩ := link_refines h same pos free link enough
    refine ⟨tree', ?_, after⟩
    simp only [Sum.map_inr, Option.bind_some, if_neg pos, run, Option.map_some]

end FindNewAdd

theorem ehRbFindAdd_eq (pos : x ≠ 0) :
    tree.ehRbFindAdd fuel x = tree.ehRbFindNewAdd fuel (tree.cmp x) x := by
  simp only [RbRoot.ehRbFindAdd, RbRoot.ehRbFindNewAdd, if_neg pos]

theorem matchFind_run {m : RbMem} {s : Tree Nat} {parent : ℕ} (c : ℕ → Int)
    (h : s.In m parent) (enough : s.toList.length < fuel) :
    m.matchFind c fuel s.ptr = some ((Root.matchFind (fun y => turnOf (c y)) s).getD 0) := by
  obtain ⟨fuel, rfl⟩ := Nat.exists_eq_succ_of_ne_zero (Nat.ne_of_gt (Nat.zero_lt_of_lt enough))
  induction s generalizing parent fuel with
  | nil => rfl
  | node color l y r ihl ihr =>
    obtain ⟨⟨pos, node⟩, left, right⟩ := h
    simp only [Tree.toList, List.length_append, List.length_cons] at enough
    obtain ⟨rest, rfl⟩ : ∃ rest, fuel = rest + 1 :=
      Nat.exists_eq_succ_of_ne_zero (by omega)
    rw [RbMem.matchFind, Root.matchFind, Tree.ptr, if_neg pos]
    simp only [turnOf, RbMem.child, node]
    by_cases lt : c y < 0
    · simp only [lt, if_true]
      exact ihl left rest (by omega)
    by_cases gt : 0 < c y
    · simp only [lt, gt, if_true, if_false]
      exact ihr right rest (by omega)
    · simp only [lt, gt, if_false]
      rfl

theorem ehRbMatchFind_refines (h : Refines tree t) (c : ℕ → Int)
    (enough : t.nodes.length < fuel) :
    tree.ehRbMatchFind fuel c = some ((t.ehRbMatchFind fun y => turnOf (c y)).getD 0) := by
  have root : tree.rbNode = t.tree.ptr := (h.represents.get 1 rfl).2
  rw [RbRoot.ehRbMatchFind, root]
  exact matchFind_run c (h.represents.get 0 rfl) enough

end EventHub.RbTree
