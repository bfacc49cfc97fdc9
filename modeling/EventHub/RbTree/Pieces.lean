import EventHub.Library.Pieces
import EventHub.RbTree.Pointers
import Mathlib.Tactic.Ring

/-! How a tree stands in memory: single nodes, subtrees, stretches of a path, and the path
above a place with the root. Address `0` stands for the pointer of the root. -/

namespace EventHub.RbTree
open Library

/-- The address of the root of a subtree, `NULL` for none. -/
def Tree.ptr : Tree Nat → Nat
  | .nil => 0
  | .node _ _ x _ => x

@[simp] theorem Tree.ptr_setBlack (t : Tree Nat) : t.setBlack.ptr = t.ptr := by
  cases t <;> rfl

/-- The subtree stands in memory below `parent`. -/
def Tree.In (m : RbMem) : Tree Nat → Nat → Prop
  | .nil, _ => True
  | .node c l x r, parent =>
    (x ≠ 0 ∧ m.node x = ⟨word parent c, r.ptr, l.ptr⟩) ∧ l.In m x ∧ r.In m x

/-- A node with the child `near` on side `d`. -/
def Dir.cell (d : Dir) (pc near far : Nat) : RbNode := ⟨pc, d.pick far near, d.pick near far⟩

namespace Path

/-- The parent of the place, `top` where the path is empty. -/
def ptr (top : Nat) : Path Nat → Nat
  | [] => top
  | f :: _ => f.val

/-- The path stands in memory, with `child` at its lower end and below `top`. -/
def In (m : RbMem) (top : Nat) : Path Nat → Nat → Prop
  | [], _ => True
  | f :: up, child =>
    (f.val ≠ 0 ∧ m.node f.val = f.dir.cell (word (ptr top up) f.color) child f.sibling.ptr) ∧
      f.sibling.In m f.val ∧ In m top up f.val

/-- The upper end of the path with `child` at its lower end. -/
def top : Path Nat → Nat → Nat
  | [], child => child
  | f :: up, _ => top up f.val

def nodes {α : Type} : Path α → List α
  | [] => []
  | f :: up => f.val :: f.sibling.toList ++ nodes up

def link : Path Nat → Link
  | [] => .root
  | f :: _ => .child f.val f.dir

section Append
variable (lower upper : Path Nat) (child : Nat)

theorem nodes_append : (lower ++ upper).nodes = lower.nodes ++ upper.nodes := by
  induction lower with
  | nil => rfl
  | cons f lower ih => simp [nodes, ih]

theorem ptr_append (top : Nat) : (lower ++ upper).ptr top = lower.ptr (upper.ptr top) := by
  cases lower <;> rfl

theorem top_append : (lower ++ upper).top child = upper.top (lower.top child) := by
  induction lower generalizing child with
  | nil => rfl
  | cons f lower ih => exact ih f.val

theorem append_in (m : RbMem) : (lower ++ upper).In m 0 child ↔
    lower.In m (upper.ptr 0) child ∧ upper.In m 0 (lower.top child) := by
  induction lower generalizing child with
  | nil => simp [In, top]
  | cons f lower ih =>
    have rest := ih f.val
    have parent := ptr_append lower upper 0
    simp only [List.cons_append, In, top] at rest parent ⊢
    simp only [rest, parent, and_assoc]

end Append

end Path

inductive Piece
  | cell (x : Nat) (n : RbNode)
  | tree (t : Tree Nat) (parent : Nat)
  | seg (path : Path Nat) (child top : Nat)
  | up (path : Path Nat) (child : Nat)

namespace Piece

def In (m : RbMem) : Piece → Prop
  | cell x n => x ≠ 0 ∧ m.node x = n
  | tree t parent => t.In m parent
  | seg path child top => path.In m top child
  | up path child => path.In m 0 child ∧ m.rbNode = path.top child

def foot : Piece → List Nat
  | cell x _ => [x]
  | tree t _ => t.toList
  | seg path _ _ => path.nodes
  | up path _ => 0 :: path.nodes

end Piece

section Frame
variable {m m' : RbMem} {t : Tree Nat} {path : Path Nat} {x parent child top : Nat}

theorem Tree.In.frame (same : ∀ a ∈ t.toList, m'.node a = m.node a) (h : t.In m parent) :
    t.In m' parent := by
  induction t generalizing parent with
  | nil => trivial
  | node c l x r ihl ihr =>
    obtain ⟨⟨pos, node⟩, left, right⟩ := h
    simp only [Tree.toList, List.mem_append, List.mem_cons] at same
    refine ⟨⟨pos, by rw [same x (by simp), node]⟩, ihl (fun a mem => ?_) left,
      ihr (fun a mem => ?_) right⟩
    · exact same a (.inl mem)
    · exact same a (.inr (.inr mem))

theorem Path.In.frame (same : ∀ a ∈ path.nodes, m'.node a = m.node a)
    (h : path.In m top child) : path.In m' top child := by
  induction path generalizing child with
  | nil => trivial
  | cons f up ih =>
    obtain ⟨⟨pos, node⟩, sibling, rest⟩ := h
    simp only [Path.nodes, List.cons_append, List.mem_cons, List.mem_append] at same
    refine ⟨⟨pos, by rw [same f.val (.inl rfl), node]⟩, sibling.frame fun a mem => ?_,
      ih (fun a mem => ?_) rest⟩
    · exact same a (.inr (.inl mem))
    · exact same a (.inr (.inr mem))

end Frame

def layout : Layout RbMem Piece Nat where
  holds := Piece.In
  foot := Piece.foot
  same a m m' := m'.node a = m.node a ∧ (a = 0 → m'.rbNode = m.rbNode)
  frame {m m' p} same h := by
    cases p with
    | cell x n => exact ⟨h.1, (same x (List.mem_singleton.mpr rfl)).1.trans h.2⟩
    | tree t parent => exact Tree.In.frame (fun a mem => (same a mem).1) h
    | seg path child top => exact Path.In.frame (fun a mem => (same a mem).1) h
    | up path child =>
      have root := (same 0 (List.mem_cons_self ..)).2 rfl
      exact ⟨h.1.frame fun a mem => (same a (List.mem_cons_of_mem _ mem)).1, root.trans h.2⟩

abbrev Sep (m : RbMem) (ps : List Piece) : Prop := layout.Sep m ps

def Represents (m : RbMem) (t : Tree Nat) : Prop := Sep m [.tree t 0, .up [] t.ptr]

section Cells
variable (d : Dir) (pc near far v : Nat)

@[simp] theorem Dir.pick_pick {β : Type} (a b : β) :
    d.pick (d.pick a b) (d.pick b a) = a := by
  cases d <;> rfl

theorem Dir.cell_flip : d.flip.cell pc near far = d.cell pc far near := by
  cases d <;> rfl

@[simp] theorem Dir.cell_word : (d.cell pc near far).parentAndColor = pc := rfl

@[simp] theorem Dir.cell_near : (d.cell pc near far).child d = near := by
  cases d <;> rfl

@[simp] theorem Dir.cell_far : (d.cell pc near far).child d.flip = far := by
  cases d <;> rfl

@[simp] theorem Dir.cell_setNear : (d.cell pc near far).setChild d v = d.cell pc v far := by
  cases d <;> rfl

@[simp] theorem Dir.cell_setFar :
    (d.cell pc near far).setChild d.flip v = d.cell pc near v := by
  cases d <;> rfl

end Cells

section Word
variable (p : Nat) (c : Color)

@[simp] theorem word_parent : pcParent (word p c) = p := by
  cases c <;> simp only [pcParent, word, Color.bit] <;> omega

@[simp] theorem word_black : pcIsBlack (word p c) = (c == .black) := by
  cases c
  · have even : word p .red % 2 = 0 := by
      simp only [word, Color.bit]
      omega
    simp [pcIsBlack, even]
  · have odd : word p .black % 2 = 1 := by
      simp only [word, Color.bit]
      omega
    simp [pcIsBlack, odd]

theorem word_red (p : Nat) : word p .red = 4 * p := rfl

theorem word_setParent (p' : Nat) : word p c % 2 + 4 * p' = word p' c := by
  cases c <;> simp only [word, Color.bit] <;> omega

theorem word_setBlack (p : Nat) : word p .red ||| 1 = word p .black := by
  have even : 2 ^ 1 * (2 * p) + 1 = 2 ^ 1 * (2 * p) ||| 1 :=
    Nat.two_pow_add_eq_or_of_lt (by decide) _
  rw [word_red, word, Color.bit, show 4 * p = 2 ^ 1 * (2 * p) by ring, even]

end Word

theorem RbMem.changeChild_eq {m : RbMem} {d : Dir} {old new parent pc far : ℕ}
    (pos : parent ≠ 0) (node : m.node parent = d.cell pc old far) (other : far ≠ old) :
    m.changeChild old new parent = m.setChild d parent new := by
  rw [changeChild, if_pos pos, child, node]
  cases d with
  | left => rw [if_pos (Dir.cell_near ..)]
  | right => exact if_neg other

theorem RbMem.turn {m : RbMem} {d : Dir} {parent x pc far : ℕ}
    (node : m.node parent = d.cell pc x far) (other : far ≠ x) :
    (if x ≠ m.child .right parent then Dir.left else .right) = d := by
  rw [child, node]
  cases d with
  | left => exact if_pos other.symm
  | right => exact if_neg (not_not_intro rfl)

namespace Path.In
variable {m : RbMem} {f : Frame Nat} {up path : Path Nat} {old child top : ℕ}

theorem setChild (h : In m top (f :: up) old) (nodup : (nodes (f :: up)).Nodup) (new : ℕ) :
    In (m.setChild f.dir f.val new) top (f :: up) new := by
  obtain ⟨⟨pos, node⟩, sibling, rest⟩ := h
  obtain ⟨fresh, -⟩ := List.nodup_cons.mp
    (by simpa [nodes] using nodup : (f.val :: (f.sibling.toList ++ nodes up)).Nodup)
  rw [List.mem_append, not_or] at fresh
  rw [RbMem.setChild, node, Dir.cell_setNear]
  have same : ∀ a, a ≠ f.val → (m.write f.val (f.dir.cell
      (word (ptr top up) f.color) new f.sibling.ptr)).node a = m.node a := fun a ne =>
    Function.update_of_ne ne ..
  refine ⟨⟨pos, Function.update_self ..⟩, sibling.frame fun a mem => ?_,
    rest.frame fun a mem => ?_⟩
  · exact same a fun eq => fresh.1 (eq ▸ mem)
  · exact same a fun eq => fresh.2 (eq ▸ mem)

theorem top_mem (path : Path Nat) (some : path ≠ []) (child : ℕ) :
    path.top child ∈ path.nodes := by
  induction path generalizing child with
  | nil => exact absurd rfl some
  | cons f up ih =>
    cases up with
    | nil => simp [top, nodes]
    | cons g up =>
      exact List.mem_append_right _ (ih (List.cons_ne_nil g up) f.val)

theorem setTop (h : In m top path child) (some : path ≠ []) (nodup : path.nodes.Nodup)
    (top' : ℕ) : In (m.setParent (path.top child) top') top' path child := by
  induction path generalizing child with
  | nil => exact absurd rfl some
  | cons f up ih =>
    obtain ⟨⟨pos, node⟩, sibling, rest⟩ := h
    obtain ⟨fresh, nodup⟩ := List.nodup_cons.mp
      (by simpa [nodes] using nodup : (f.val :: (f.sibling.toList ++ nodes up)).Nodup)
    rw [List.mem_append, not_or] at fresh
    obtain ⟨-, nodup, apart⟩ := List.nodup_append.mp nodup
    have outside : ∀ a x, a ≠ x → (m.setParent x top').node a = m.node a := fun a x ne =>
      Function.update_of_ne ne ..
    cases up with
    | nil =>
      refine ⟨⟨pos, ?_⟩, sibling.frame fun a mem => ?_, trivial⟩
      · rw [show Path.top [f] child = f.val from rfl, RbMem.setParent, RbMem.setPc, node, ptr,
          Dir.cell_word, word_setParent]
        exact Function.update_self ..
      · exact outside a f.val fun eq => fresh.1 (eq ▸ mem)
    | cons g up =>
      have upper := Path.In.top_mem (g :: up) (List.cons_ne_nil g up) f.val
      refine ⟨⟨pos, ?_⟩, sibling.frame fun a mem => ?_,
        ih rest (List.cons_ne_nil g up) nodup⟩
      · exact (outside f.val _ fun eq => fresh.2 (eq ▸ upper)).trans node
      · exact outside a _ (apart a mem _ upper)

end Path.In

namespace Sep
variable {m : RbMem} {ps : List Piece} {i j k x p : ℕ} {n : RbNode} {c : Color} {l r t : Tree Nat}

theorem node (h : Sep m ps) (i : ℕ) (get : ps[i]? = some (.cell x n)) : m.node x = n :=
  (h.get i get).2

theorem pos (h : Sep m ps) (i : ℕ) (get : ps[i]? = some (.cell x n)) : x ≠ 0 :=
  (h.get i get).1

theorem ptr_ne (h : Sep m ps) (i j : ℕ) (cell : ps[i]? = some (.cell x n))
    (tree : ps[j]? = some (.tree t p)) : t.ptr ≠ x := by
  have apart : i ≠ j := by
    rintro rfl
    rw [cell] at tree
    cases tree
  cases t with
  | nil => exact (h.pos i cell).symm
  | node c l y r =>
    have outside := h.disjoint cell tree apart x (List.mem_singleton.mpr rfl)
    rintro rfl
    exact outside (by simp [layout, Piece.foot, Tree.ptr, Tree.toList])

theorem red_iff (h : Sep m ps) (i : ℕ) (get : ps[i]? = some (.tree t p)) :
    (t.ptr ≠ 0 ∧ m.isRed t.ptr = true) ↔ t.isRed = true := by
  cases t with
  | nil => simp [Tree.ptr, Tree.isRed]
  | node c l y r =>
    obtain ⟨⟨pos, node⟩, -⟩ := h.get i get
    cases c <;> simp [Tree.ptr, Tree.isRed, RbMem.isRed, RbMem.isBlack, pos, node]

theorem black_iff (h : Sep m ps) (i : ℕ) (get : ps[i]? = some (.tree t p)) :
    (t.ptr = 0 ∨ m.isBlack t.ptr = true) ↔ t.isRed = false := by
  rw [← Bool.not_eq_true, ← h.red_iff i get, RbMem.isRed, not_and_or, not_not,
    Bool.not_eq_true', Bool.not_eq_false]

section Parts
variable {f : Frame Nat} {up : Path Nat} {child : ℕ} {near far : Tree Nat} {d : Dir}

theorem nil_iff : Sep m (.tree .nil p :: ps) ↔ Sep m ps :=
  Layout.sep_cons_iff [] (by simp [layout, Piece.In, Tree.In]) (.refl _)

theorem node_iff (d : Dir) : Sep m (.tree (.node c l x r) p :: ps) ↔
    Sep m (.cell x (d.cell (word p c) (d.pick l r).ptr (d.pick r l).ptr) ::
      .tree (d.pick l r) x :: .tree (d.pick r l) x :: ps) := by
  refine Layout.sep_cons_iff [_, Piece.tree (d.pick l r) x, Piece.tree (d.pick r l) x] ?_ ?_
  · cases d <;> simp [layout, Piece.In, Tree.In, Dir.cell, Dir.pick, and_comm]
  · refine List.perm_iff_count.mpr fun a => ?_
    cases d <;> simp [layout, Layout.places, Piece.foot, Tree.toList, Dir.pick,
      List.count_cons] <;> ring

theorem join_iff : Sep m (.tree (d.join c near x far) p :: ps) ↔
    Sep m (.cell x (d.cell (word p c) near.ptr far.ptr) ::
      .tree near x :: .tree far x :: ps) := by
  rw [Dir.join, node_iff d, Dir.pick_pick, Dir.pick_pick]

theorem cons_iff : Sep m (.up (f :: up) child :: ps) ↔
    Sep m (.cell f.val (f.dir.cell (word (up.ptr 0) f.color) child f.sibling.ptr) ::
      .tree f.sibling f.val :: .up up f.val :: ps) := by
  refine Layout.sep_cons_iff [_, Piece.tree f.sibling f.val, Piece.up up f.val] ?_ ?_
  · simp [layout, Piece.In, Path.In, Path.top, and_assoc]
  · refine List.perm_iff_count.mpr fun a => ?_
    simp only [layout, Layout.places, Piece.foot, Path.nodes, List.count_cons,
      List.count_append, List.flatMap_cons, List.flatMap_nil, List.count_nil]
    ring

theorem zip_iff (t : Tree Nat) (path : Path Nat) :
    Sep m [.tree t (path.ptr 0), .up path t.ptr] ↔ Represents m (zip t path) := by
  induction path generalizing t with
  | nil => rfl
  | cons f up ih =>
    rw [zip, ← ih]
    constructor
    · intro h
      have parts := cons_iff.mp (h.pick [1, 0] (by decide))
      exact join_iff.mpr (parts.pick [0, 3, 1, 2] (by decide))
    · intro h
      have parts := join_iff.mp h
      have up : Sep m [.up (f :: up) t.ptr, .tree t f.val] :=
        cons_iff.mpr (parts.pick [0, 2, 3, 1] (by decide))
      exact up.pick [1, 0] (by decide)

end Parts

section Edits
variable {old new : ℕ} {path : Path Nat} {n' : RbNode}

theorem write (h : Sep m ps) (get : ps[i]? = some (.cell x n)) (n' : RbNode) :
    Sep (m.write x n') (ps.set i (.cell x n')) := by
  refine h.set get rfl ⟨h.pos i get, Function.update_self ..⟩ fun a out => ⟨?_, fun _ => rfl⟩
  exact Function.update_of_ne (fun eq => out (List.mem_singleton.mpr eq)) ..

theorem setChild (h : Sep m ps) (i : ℕ) (get : ps[i]? = some (.cell x n)) (d : Dir)
    (v : ℕ) : Sep (m.setChild d x v) (ps.set i (.cell x (n.setChild d v))) := by
  rw [RbMem.setChild, h.node i get]
  exact h.write get _

theorem setPc (h : Sep m ps) (i : ℕ) (get : ps[i]? = some (.cell x n)) (pc : ℕ) :
    Sep (m.setPc x pc) (ps.set i (.cell x { n with parentAndColor := pc })) := by
  rw [RbMem.setPc, h.node i get]
  exact h.write get _

theorem setNear {d : Dir} {pc a b : ℕ} (h : Sep m ps) (i : ℕ)
    (get : ps[i]? = some (.cell x (d.cell pc a b))) (v : ℕ) :
    Sep (m.setChild d x v) (ps.set i (.cell x (d.cell pc v b))) := by
  rw [← Dir.cell_setNear d pc a b v]
  exact h.setChild i get d v

theorem setFar {d : Dir} {pc a b : ℕ} (h : Sep m ps) (i : ℕ)
    (get : ps[i]? = some (.cell x (d.cell pc a b))) (v : ℕ) :
    Sep (m.setChild d.flip x v) (ps.set i (.cell x (d.cell pc a v))) := by
  rw [← Dir.cell_setFar d pc a b v]
  exact h.setChild i get d.flip v

theorem setPcTree (h : Sep m ps) (i : ℕ) (get : ps[i]? = some (.tree (.node c l x r) p))
    (p' : ℕ) (c' : Color) :
    Sep (m.setPc x (word p' c')) (ps.set i (.tree (.node c' l x r) p')) := by
  obtain ⟨⟨pos, node⟩, left, right⟩ := h.get i get
  have nodup : (l.toList ++ x :: r.toList).Nodup := h.foot_nodup get
  obtain ⟨-, rest, apart⟩ := List.nodup_append.mp nodup
  have outside : ∀ a, a ≠ x → (m.setPc x (word p' c')).node a = m.node a := fun a ne =>
    Function.update_of_ne ne ..
  refine h.set get rfl ⟨⟨pos, ?_⟩, left.frame fun a mem => ?_, right.frame fun a mem => ?_⟩
    fun a out => ⟨?_, fun _ => rfl⟩
  · rw [RbMem.setPc, node]
    exact Function.update_self ..
  · exact outside a (apart a mem x (List.mem_cons_self ..))
  · exact outside a fun eq => (List.nodup_cons.mp rest).1 (eq ▸ mem)
  · refine outside a fun eq => out ?_
    simp [layout, Piece.foot, Tree.toList, eq]

theorem blackenIf (h : Sep m ps) (i : ℕ) (get : ps[i]? = some (.tree t p)) (p' : ℕ) :
    Sep (m.blackenIf t.ptr p') (ps.set i (.tree t.setBlack p')) := by
  cases t with
  | nil => exact h.set get rfl trivial fun a _ => ⟨rfl, fun _ => rfl⟩
  | node c l x r =>
    rw [RbMem.blackenIf, Tree.ptr, if_pos (h.get i get).1.1]
    exact h.setPcTree i get p' .black

theorem setParentIf (h : Sep m ps) (i : ℕ) (get : ps[i]? = some (.tree t p)) (p' : ℕ) :
    Sep (if t.ptr ≠ 0 then m.setParent t.ptr p' else m) (ps.set i (.tree t p')) := by
  cases t with
  | nil => exact h.set get rfl trivial fun a _ => ⟨rfl, fun _ => rfl⟩
  | node c l x r =>
    rw [Tree.ptr, if_pos (h.get i get).1.1, RbMem.setParent, (h.get i get).1.2,
      word_setParent]
    exact h.setPcTree i get p' c

theorem deref (h : Sep m ps) (i : ℕ) (get : ps[i]? = some (.up path old)) :
    m.deref path.link = old := by
  obtain ⟨below, root⟩ := h.get i get
  cases path with
  | nil => exact root
  | cons f up =>
    rw [Path.link, RbMem.deref, RbMem.child, below.1.2]
    exact Dir.cell_near ..

theorem assign (h : Sep m ps) (i : ℕ) (get : ps[i]? = some (.up path old)) (new : ℕ) :
    Sep (m.assign path.link new) (ps.set i (.up path new)) := by
  obtain ⟨below, root⟩ := h.get i get
  cases path with
  | nil =>
    refine h.set get rfl ⟨trivial, rfl⟩ fun a out => ⟨rfl, fun eq => absurd ?_ out⟩
    simp [layout, Piece.foot, eq]
  | cons f up =>
    have nodup : (0 :: Path.nodes (f :: up)).Nodup := h.foot_nodup get
    refine h.set get rfl ⟨below.setChild (List.nodup_cons.mp nodup).2 new, root⟩
      fun a out => ⟨Function.update_of_ne (fun eq => out ?_) .., fun _ => rfl⟩
    simp [layout, Piece.foot, Path.nodes, eq]

theorem changeChild (h : Sep m ps) (i j : ℕ) (get : ps[i]? = some (.up path old))
    (cell : ps[j]? = some (.cell old n)) (new : ℕ) :
    Sep (m.changeChild old new (path.ptr 0)) (ps.set i (.up path new)) := by
  have edit : m.changeChild old new (path.ptr 0) = m.assign path.link new := by
    cases path with
    | nil => exact if_neg (not_not_intro rfl)
    | cons f up =>
      obtain ⟨⟨⟨pos, node⟩, -⟩, -⟩ := h.get i get
      have apart : j ≠ i := by
        rintro rfl
        rw [get] at cell
        cases cell
      have outside : old ∉ (0 :: Path.nodes (f :: up)) :=
        h.disjoint cell get apart old (List.mem_singleton.mpr rfl)
      refine RbMem.changeChild_eq pos node fun eq => outside ?_
      cases shape : f.sibling with
      | nil => simp [← eq, shape, Tree.ptr]
      | node c' l y r => simp [← eq, shape, Path.nodes, Tree.toList, Tree.ptr]
  rw [edit]
  exact h.assign i get new

theorem rotateSetParents {o : RbNode} (h : Sep m ps) (i j k : ℕ)
    (get : ps[i]? = some (.up path old)) (cellOld : ps[j]? = some (.cell old o))
    (cellNew : ps[k]? = some (.cell new n)) (apart : j ≠ k)
    (pc : o.parentAndColor = word (path.ptr 0) c) (color : Color) :
    Sep (m.rotateSetParents old new color)
      (((ps.set k (.cell new { n with parentAndColor := o.parentAndColor })).set j
        (.cell old { o with parentAndColor := word new color })).set i (.up path new)) := by
  have ne : i ≠ j ∧ i ≠ k := by
    constructor
    · rintro rfl
      rw [get] at cellOld
      cases cellOld
    · rintro rfl
      rw [get] at cellNew
      cases cellNew
  have parent : m.rbParent old = path.ptr 0 := by
    rw [RbMem.rbParent, h.node j cellOld, pc, word_parent]
  simp only [RbMem.rotateSetParents, parent, h.node j cellOld]
  have first := h.setPc k cellNew o.parentAndColor
  have second := first.setPc j ((List.getElem?_set_ne apart.symm).trans cellOld)
    (word new color)
  refine second.changeChild i j ?_ (List.getElem?_set_self ?_) new
  · rw [List.getElem?_set_ne ne.1.symm, List.getElem?_set_ne ne.2.symm, get]
  · rw [List.length_set]
    exact (List.getElem?_eq_some_iff.mp cellOld).1

section Segments
variable {f : Frame Nat} {child top : ℕ}

theorem segChild {up : Path Nat} (h : Sep m ps) (i : ℕ)
    (get : ps[i]? = some (.seg path old top)) (shape : path = f :: up) (new : ℕ) :
    Sep (m.setChild f.dir f.val new) (ps.set i (.seg path new top)) := by
  subst shape
  have below : Path.In m top (f :: up) old := h.get i get
  have nodup : (Path.nodes (f :: up)).Nodup := h.foot_nodup get
  refine h.set get rfl (below.setChild nodup new)
    fun a out => ⟨Function.update_of_ne (fun eq => out ?_) .., fun _ => rfl⟩
  simp [layout, Piece.foot, Path.nodes, eq]

theorem segTop (h : Sep m ps) (i : ℕ) (get : ps[i]? = some (.seg path child top))
    (some : path ≠ []) (top' : ℕ) :
    Sep (m.setParent (path.top child) top') (ps.set i (.seg path child top')) := by
  have below : path.In m top child := h.get i get
  refine h.set get rfl (below.setTop some (h.foot_nodup get) top')
    fun a out => ⟨Function.update_of_ne (fun eq => out ?_) .., fun _ => rfl⟩
  rw [eq]
  exact Path.In.top_mem path some child

theorem seg_nil_iff : Sep m (.seg [] child top :: ps) ↔ Sep m ps :=
  Layout.sep_cons_iff [] (by simp [layout, Piece.In, Path.In]) (.refl _)

theorem append_iff {lower upper : Path Nat} :
    Sep m (.up (lower ++ upper) child :: ps) ↔
      Sep m (.seg lower child (upper.ptr 0) :: .up upper (lower.top child) :: ps) := by
  refine Layout.sep_cons_iff [_, Piece.up upper (lower.top child)] ?_ ?_
  · simp [layout, Piece.In, Path.append_in, Path.top_append, and_assoc]
  · refine List.perm_iff_count.mpr fun a => ?_
    simp only [layout, Layout.places, Piece.foot, Path.nodes_append, List.count_cons,
      List.count_append, List.flatMap_cons, List.flatMap_nil, List.count_nil]
    ring

end Segments

end Edits

end Sep

end EventHub.RbTree
