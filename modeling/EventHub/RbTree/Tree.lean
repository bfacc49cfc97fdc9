import Mathlib.Data.List.Basic
import Mathlib.Data.List.Nodup

/-! The red-black trees of `eh_rbtree.h`. A place in a tree is the subtree there and the
path of ancestors above it, the parent first. -/

namespace EventHub.RbTree

inductive Color
  | red
  | black
deriving DecidableEq, Repr

inductive Tree (α : Type)
  | nil
  | node (color : Color) (left : Tree α) (val : α) (right : Tree α)
deriving DecidableEq, Repr

/-- Which child of its parent a node is. The source writes each loop body twice, the
second time with left and right exchanged. -/
inductive Dir
  | left
  | right
deriving DecidableEq, Repr

/-- An ancestor: the side below which the place is, and the child on the other side. -/
structure Frame (α : Type) where
  dir : Dir
  color : Color
  val : α
  sibling : Tree α
deriving DecidableEq, Repr

abbrev Path (α : Type) := List (Frame α)

variable {α : Type}

def Dir.pick {β : Type} : Dir → β → β → β
  | .left, a, _ => a
  | .right, _, b => b

/-- The node whose child on side `d` is `near`. -/
def Dir.join (d : Dir) (c : Color) (near : Tree α) (x : α) (far : Tree α) : Tree α :=
  .node c (d.pick near far) x (d.pick far near)

namespace Tree

/-- `rb && rb_is_red(rb)`. -/
def isRed : Tree α → Bool
  | .node .red _ _ _ => true
  | _ => false

/-- `if (rb) rb_set_parent_color(rb, .., RB_BLACK)`. -/
def setBlack : Tree α → Tree α
  | .nil => .nil
  | .node _ l x r => .node .black l x r

/-- The nodes in the order of `eh_rb_next_for_each_entry`. -/
def toList : Tree α → List α
  | .nil => []
  | .node _ l x r => l.toList ++ x :: r.toList

@[simp] theorem toList_setBlack (t : Tree α) : t.setBlack.toList = t.toList := by
  cases t <;> rfl

end Tree

/-- The whole tree with `t` at the place below the path. -/
def zip (t : Tree α) : Path α → Tree α
  | [] => t
  | f :: up => zip (f.dir.join f.color t f.val f.sibling) up

namespace Path

def before : Path α → List α
  | [] => []
  | ⟨.left, _, _, _⟩ :: up => before up
  | ⟨.right, _, x, l⟩ :: up => before up ++ (l.toList ++ [x])

def after : Path α → List α
  | [] => []
  | ⟨.left, _, x, r⟩ :: up => x :: r.toList ++ after up
  | ⟨.right, _, _, _⟩ :: up => after up

theorem before_append (p q : Path α) : before (p ++ q) = q.before ++ p.before := by
  fun_induction before p with
  | case1 => simp
  | case2 _ _ _ up ih => exact ih
  | case3 _ x l up ih => rw [List.cons_append, before, ih, List.append_assoc]

theorem after_append (p q : Path α) : after (p ++ q) = p.after ++ q.after := by
  fun_induction after p with
  | case1 => rfl
  | case2 _ x r up ih => simp [after, ih]
  | case3 _ _ _ up ih => exact ih

end Path

theorem toList_zip (t : Tree α) (p : Path α) :
    (zip t p).toList = p.before ++ (t.toList ++ p.after) := by
  induction p generalizing t with
  | nil => simp [zip, Path.before, Path.after]
  | cons f up ih =>
    obtain ⟨dir, color, x, sibling⟩ := f
    rw [zip, ih]
    cases dir <;> simp [Dir.join, Dir.pick, Tree.toList, Path.before, Path.after]

theorem place_unique {before after before' after' : List α} {x : α}
    (nodup : (before ++ x :: after).Nodup) (eq : before ++ x :: after = before' ++ x :: after') :
    after = after' := by
  obtain ⟨-, rest, apart⟩ := List.nodup_append.mp nodup
  refine ((List.append_cons_inj_of_notMem ?_ ?_).mp eq).2.2
  · exact fun mem => apart x mem x (List.mem_cons_self ..) rfl
  · exact (List.nodup_cons.mp rest).1

theorem zip_append (t : Tree α) (p q : Path α) : zip t (p ++ q) = zip (zip t p) q := by
  induction p generalizing t with
  | nil => rfl
  | cons f up ih => exact ih _

theorem toList_zip_congr {s t : Tree α} (same : s.toList = t.toList) (p : Path α) :
    (zip s p).toList = (zip t p).toList := by
  rw [toList_zip, toList_zip, same]

/-- `Bal t c n`: the root has colour `c`, no red node has a red child, and every path
down passes `n` black nodes. A null pointer counts as black. -/
inductive Bal : Tree α → Color → Nat → Prop
  | nil : Bal .nil .black 0
  | red {l r : Tree α} {x : α} {n : Nat} :
      Bal l .black n → Bal r .black n → Bal (.node .red l x r) .red n
  | black {l r : Tree α} {x : α} {c d : Color} {n : Nat} :
      Bal l c n → Bal r d n → Bal (.node .black l x r) .black (n + 1)

/-- `PathBal p c n`: with a subtree `t` such that `Bal t c n` below it, the path makes a
balanced tree with a black root. -/
inductive PathBal : Path α → Color → Nat → Prop
  | nil {n : Nat} : PathBal [] .black n
  | red {d : Dir} {x : α} {s : Tree α} {up : Path α} {n : Nat} :
      Bal s .black n → PathBal up .red n → PathBal (⟨d, .red, x, s⟩ :: up) .black n
  | black {d : Dir} {x : α} {s : Tree α} {up : Path α} {c e : Color} {n : Nat} :
      Bal s e n → PathBal up .black (n + 1) → PathBal (⟨d, .black, x, s⟩ :: up) c n

namespace Bal
variable {t l r s : Tree α} {c e : Color} {n : Nat} {x : α} {d : Dir}

theorem joinRed (hn : Bal l .black n) (hf : Bal r .black n) :
    Bal (d.join .red l x r) .red n := by
  cases d
  · exact .red hn hf
  · exact .red hf hn

theorem joinBlack (hn : Bal l c n) (hf : Bal r e n) :
    Bal (d.join .black l x r) .black (n + 1) := by
  cases d
  · exact .black hn hf
  · exact .black hf hn

theorem pick {a b : Tree α} (ha : Bal a .black n) (hb : Bal b .black n) :
    Bal (d.pick a b) .black n := by
  cases d
  · exact ha
  · exact hb

theorem setBlack_red (h : Bal t .red n) : Bal t.setBlack .black (n + 1) := by
  cases h with
  | red hl hr => exact .black hl hr

theorem setBlack_black (h : Bal t .black n) : t.setBlack = t := by
  cases h <;> rfl

theorem isRed_iff (h : Bal t c n) : t.isRed = true ↔ c = .red := by
  cases h <;> simp [Tree.isRed]

theorem black_of_not_red (h : Bal t c n) (not : ¬t.isRed = true) : Bal t .black n := by
  cases h with
  | nil => exact .nil
  | red => exact absurd rfl not
  | black hl hr => exact .black hl hr

theorem zip (h : Bal t c n) {p : Path α} (hp : PathBal p c n) :
    ∃ m, Bal (RbTree.zip t p) .black m := by
  induction hp generalizing t with
  | nil => exact ⟨_, h⟩
  | red sibling _ ih => exact ih (h.joinRed sibling)
  | black sibling _ ih => exact ih (h.joinBlack sibling)

theorem of_zip {p : Path α} {m : Nat} (h : Bal (RbTree.zip t p) .black m) :
    ∃ c n, Bal t c n ∧ PathBal p c n := by
  induction p generalizing t with
  | nil => exact ⟨.black, m, h, .nil⟩
  | cons f up ih =>
    obtain ⟨d, color, x, s⟩ := f
    obtain ⟨c, n, bal, rest⟩ := ih h
    cases d <;> cases bal with
    | red hl hr => exact ⟨_, _, ‹_›, .red ‹_› rest⟩
    | black hl hr => exact ⟨_, _, ‹_›, .black ‹_› rest⟩

end Bal

/-- The root of a tree; `leftmost` is what `eh_rb_first` returns. -/
structure Root (α : Type) where
  tree : Tree α
  leftmost : Option α
deriving DecidableEq, Repr

namespace Root

/-- `eh_rb_root_init`. -/
def init : Root α := ⟨.nil, none⟩

/-- `eh_rb_root_is_empty`. -/
def isEmpty (t : Root α) : Bool :=
  match t.tree with
  | .nil => true
  | .node .. => false

def nodes (t : Root α) : List α := t.tree.toList

/-- The tree is balanced and `leftmost` is its first node. -/
structure Wf (t : Root α) : Prop where
  bal : ∃ n, Bal t.tree .black n
  leftmost : t.leftmost = t.nodes.head?

theorem init_wf : (init : Root α).Wf := ⟨⟨0, .nil⟩, rfl⟩

theorem isEmpty_iff (t : Root α) : t.isEmpty = true ↔ t.nodes = [] := by
  rw [isEmpty, nodes]
  cases t.tree <;> simp [Tree.toList]

theorem nodes_init : (init : Root α).nodes = [] := rfl

end Root

end EventHub.RbTree
