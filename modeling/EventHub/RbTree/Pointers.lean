import EventHub.RbTree.Tree
import Mathlib.Logic.Function.Basic

/-! The red-black tree as `eh_rbtree.c` keeps it: nodes with child pointers and a word for
parent and colour. Nodes are aligned, so an address is counted in units of four bytes: node
`a` has the word `4 * a`, and `0` is `NULL`. A loop takes the number of its rounds that it
may run at most. -/

namespace EventHub.RbTree

/-- `struct eh_rbtree_node`. -/
structure RbNode where
  parentAndColor : Nat
  rbRight : Nat
  rbLeft : Nat
deriving DecidableEq, Repr

/-- `RB_RED` and `RB_BLACK`. -/
def Color.bit : Color → Nat
  | .red => 0
  | .black => 1

/-- `(parent_node_t)p + (parent_node_t)color`. -/
def word (p : Nat) (c : Color) : Nat := 4 * p + c.bit

/-- `__rb_parent`. -/
def pcParent (pc : Nat) : Nat := pc / 4

/-- `__rb_is_black`. -/
def pcIsBlack (pc : Nat) : Bool := pc % 2 == 1

def Dir.flip : Dir → Dir
  | .left => .right
  | .right => .left

def RbNode.child (n : RbNode) (d : Dir) : Nat := d.pick n.rbLeft n.rbRight

def RbNode.setChild (n : RbNode) : Dir → Nat → RbNode
  | .left, v => { n with rbLeft := v }
  | .right, v => { n with rbRight := v }

/-- The nodes and the pointer `rb_node` of the root, which is all that the balancing
changes. -/
structure RbMem where
  node : Nat → RbNode
  rbNode : Nat

/-- A `struct eh_rbtree_node **`. -/
inductive Link
  | root
  | child (parent : Nat) (d : Dir)
deriving DecidableEq, Repr

namespace RbMem

def write (m : RbMem) (x : Nat) (n : RbNode) : RbMem :=
  { m with node := Function.update m.node x n }

/-- The child pointer on side `d`. -/
def child (m : RbMem) (d : Dir) (x : Nat) : Nat := (m.node x).child d

def setChild (m : RbMem) (d : Dir) (x v : Nat) : RbMem :=
  m.write x ((m.node x).setChild d v)

def setPc (m : RbMem) (x pc : Nat) : RbMem :=
  m.write x { m.node x with parentAndColor := pc }

def rbParent (m : RbMem) (x : Nat) : Nat := pcParent (m.node x).parentAndColor

def rbRedParent (m : RbMem) (x : Nat) : Nat := (m.node x).parentAndColor / 4

def isBlack (m : RbMem) (x : Nat) : Bool := pcIsBlack (m.node x).parentAndColor

def isRed (m : RbMem) (x : Nat) : Bool := !m.isBlack x

/-- `rb_set_parent`. -/
def setParent (m : RbMem) (x p : Nat) : RbMem :=
  m.setPc x ((m.node x).parentAndColor % 2 + 4 * p)

/-- `rb_set_parent_color`. -/
def setParentColor (m : RbMem) (x p : Nat) (c : Color) : RbMem := m.setPc x (word p c)

/-- `rb_set_black`. -/
def setBlack (m : RbMem) (x : Nat) : RbMem := m.setPc x ((m.node x).parentAndColor ||| 1)

/-- `__rb_change_child`. -/
def changeChild (m : RbMem) (old new parent : Nat) : RbMem :=
  if parent ≠ 0 then
    if m.child .left parent = old then m.setChild .left parent new
    else m.setChild .right parent new
  else { m with rbNode := new }

/-- `__rb_rotate_set_parents`. -/
def rotateSetParents (m : RbMem) (old new : Nat) (color : Color) : RbMem :=
  let parent := m.rbParent old
  let m := m.setPc new (m.node old).parentAndColor
  let m := m.setParentColor old new color
  m.changeChild old new parent

def deref (m : RbMem) : Link → Nat
  | .root => m.rbNode
  | .child parent d => m.child d parent

def assign (m : RbMem) : Link → Nat → RbMem
  | .root, v => { m with rbNode := v }
  | .child parent d, v => m.setChild d parent v

def rbLinkNode (m : RbMem) (node parent : Nat) (link : Link) : RbMem :=
  (m.write node ⟨4 * parent, 0, 0⟩).assign link node

/-- `if (tmp) rb_set_parent_color(tmp, parent, RB_BLACK)`. -/
def blackenIf (m : RbMem) (tmp parent : Nat) : RbMem :=
  if tmp ≠ 0 then m.setParentColor tmp parent .black else m

/-- Case 1 of `__rb_insert`, with the parent of the grandparent. -/
def insertFlip (m : RbMem) (gparent parent tmp : Nat) : RbMem × Nat :=
  let m := m.setParentColor tmp gparent .black
  let m := m.setParentColor parent gparent .black
  let node := gparent
  let parent := m.rbParent node
  (m.setParentColor node parent .red, parent)

/-- Case 2 of `__rb_insert`. -/
def insertInner (m : RbMem) (d : Dir) (parent node : Nat) : RbMem :=
  let tmp := m.child d node
  let m := m.setChild d.flip parent tmp
  let m := m.setChild d node parent
  let m := m.blackenIf tmp parent
  m.setParentColor parent node .red

/-- Case 3 of `__rb_insert`. -/
def insertRotate (m : RbMem) (d : Dir) (gparent parent tmp : Nat) : RbMem :=
  let m := m.setChild d gparent tmp
  let m := m.setChild d.flip parent gparent
  let m := m.blackenIf tmp gparent
  m.rotateSetParents gparent parent .red

/-- The loop of `__rb_insert`; `none` also where the grandparent is `NULL`. -/
def rbInsert : Nat → Nat → Nat → RbMem → Option RbMem
  | 0, _, _, _ => none
  | fuel + 1, node, parent, m =>
    if parent = 0 then some (m.setParentColor node 0 .black)
    else if m.isBlack parent then some m
    else
      let gparent := m.rbRedParent parent
      if gparent = 0 then none
      else
        let d : Dir := if parent ≠ m.child .right gparent then .left else .right
        let tmp := m.child d.flip gparent
        if tmp ≠ 0 ∧ m.isRed tmp then
          -- colour flips, and once more at the grandparent
          let (m, above) := m.insertFlip gparent parent tmp
          rbInsert fuel gparent above m
        else
          let tmp := m.child d.flip parent
          if node = tmp then
            let m := m.insertInner d parent node
            some (m.insertRotate d gparent node (m.child d.flip node))
          else some (m.insertRotate d gparent parent tmp)

/-- Case 4 of `____rb_erase_color`. -/
def eraseRotate (m : RbMem) (d : Dir) (parent sibling tmp1 : Nat) : RbMem :=
  let tmp2 := m.child d sibling
  let m := m.setChild d.flip parent tmp2
  let m := m.setChild d sibling parent
  let m := m.setParentColor tmp1 sibling .black
  let m := if tmp2 ≠ 0 then m.setParent tmp2 parent else m
  m.rotateSetParents parent sibling .black

/-- Cases 2 to 4 of `____rb_erase_color`; the flag says that the parent is a black node,
at which the loop goes on. -/
def eraseSibling (m : RbMem) (d : Dir) (parent sibling : Nat) : RbMem × Bool :=
  let tmp1 := m.child d.flip sibling
  if tmp1 = 0 ∨ m.isBlack tmp1 then
    let tmp2 := m.child d sibling
    if tmp2 = 0 ∨ m.isBlack tmp2 then
      -- case 2: colour flip
      let m := m.setParentColor sibling parent .red
      if m.isRed parent then (m.setBlack parent, false) else (m, true)
    else
      -- case 3: rotate at the sibling first
      let tmp1 := m.child d.flip tmp2
      let m := m.setChild d sibling tmp1
      let m := m.setChild d.flip tmp2 sibling
      let m := m.setChild d.flip parent tmp2
      let m := m.blackenIf tmp1 sibling
      (m.eraseRotate d parent tmp2 sibling, false)
  else (m.eraseRotate d parent sibling tmp1, false)

/-- Case 1 of `____rb_erase_color`. -/
def eraseRedSibling (m : RbMem) (d : Dir) (parent sibling tmp1 : Nat) : RbMem :=
  let m := m.setChild d.flip parent tmp1
  let m := m.setChild d sibling parent
  let m := m.setParentColor tmp1 parent .black
  m.rotateSetParents parent sibling .red

/-- The loop of `____rb_erase_color`; `none` also where `NULL` is followed. -/
def eraseColor : Nat → Nat → Nat → RbMem → Option RbMem
  | 0, _, _, _ => none
  | fuel + 1, node, parent, m =>
    let d : Dir := if node ≠ m.child .right parent then .left else .right
    let sibling := m.child d.flip parent
    if sibling = 0 then none
    else
      let tmp1 := m.child d sibling
      if m.isRed sibling ∧ tmp1 = 0 then none
      else
        let r := if m.isRed sibling
          then (m.eraseRedSibling d parent sibling tmp1).eraseSibling d parent tmp1
          else m.eraseSibling d parent sibling
        if r.2 then
          let node := parent
          let parent := r.1.rbParent node
          if parent ≠ 0 then eraseColor fuel node parent r.1 else some r.1
        else some r.1

/-- The loop of `__rb_del` that goes down to the successor: its parent and itself. -/
def findSuccessor : Nat → Nat → Nat → RbMem → Option (Nat × Nat)
  | 0, _, _, _ => none
  | fuel + 1, successor, tmp, m =>
    let parent := successor
    let successor := tmp
    let tmp := m.child .left tmp
    if tmp ≠ 0 then findSuccessor fuel successor tmp m else some (parent, successor)

/-- The end of cases 2 and 3 of `__rb_del`: the memory and `rebalance`. -/
def replaceNode (m : RbMem) (node successor parent child2 : Nat) : RbMem × Nat :=
  let tmp := m.child .left node
  let m := m.setChild .left successor tmp
  let m := m.setParent tmp successor
  let pc := (m.node node).parentAndColor
  let tmp := pcParent pc
  let m := m.changeChild node successor tmp
  if child2 ≠ 0 then ((m.setParentColor child2 parent .black).setPc successor pc, 0)
  else (m.setPc successor pc, if m.isBlack successor then parent else 0)

/-- `__rb_del`: the memory and `rebalance`. -/
def rbDel (fuel node : Nat) (m : RbMem) : Option (RbMem × Nat) :=
  let child := m.child .right node
  let tmp := m.child .left node
  let pc := (m.node node).parentAndColor
  let parent := pcParent pc
  if tmp = 0 then
    -- case 1: no more than one child
    let m := m.changeChild node child parent
    if child ≠ 0 then some (m.setPc child pc, 0)
    else some (m, if pcIsBlack pc then parent else 0)
  else if child = 0 then
    -- still case 1
    some ((m.setPc tmp pc).changeChild node tmp parent, 0)
  else
    let tmp := m.child .left child
    if tmp = 0 then
      -- case 2: the successor is the right child
      some (m.replaceNode node child child (m.child .right child))
    else
      -- case 3: the successor is leftmost under the right child
      (findSuccessor fuel child tmp m).map fun (parent, successor) =>
        let child2 := m.child .right successor
        let m := m.setChild .left parent child2
        let m := m.setChild .right successor child
        let m := m.setParent child successor
        m.replaceNode node successor parent child2

/-- `while (node->rb_left) node = node->rb_left`. -/
def goLeft : Nat → Nat → RbMem → Option Nat
  | 0, _, _ => none
  | fuel + 1, node, m =>
    if m.child .left node ≠ 0 then goLeft fuel (m.child .left node) m else some node

/-- `while ((parent = rb_parent(node)) && node == parent->rb_right) node = parent`; the
result is the parent. -/
def goUp : Nat → Nat → RbMem → Option Nat
  | 0, _, _ => none
  | fuel + 1, node, m =>
    let parent := m.rbParent node
    if parent ≠ 0 ∧ node = m.child .right parent then goUp fuel parent m else some parent

def ehRbNext (fuel node : Nat) (m : RbMem) : Option Nat :=
  if (m.node node).parentAndColor = 4 * node then some 0
  else if m.child .right node ≠ 0 then goLeft fuel (m.child .right node) m
  else goUp fuel node m

/-- The loop `while (*link)` of the three functions that insert: the node that compares
equal, or the link, the parent and `leftmost`. -/
def descend (c : Nat → Int) :
    Nat → Link → Nat → Bool → RbMem → Option (Nat ⊕ (Link × Nat × Bool))
  | 0, _, _, _, _ => none
  | fuel + 1, link, parent, leftmost, m =>
    if m.deref link = 0 then some (.inr (link, parent, leftmost))
    else
      let parent := m.deref link
      if c parent < 0 then descend c fuel (.child parent .left) parent leftmost m
      else if 0 < c parent then descend c fuel (.child parent .right) parent false m
      else some (.inl parent)

/-- The loop of `eh_rb_match_find`. -/
def matchFind (c : Nat → Int) : Nat → Nat → RbMem → Option Nat
  | 0, _, _ => none
  | fuel + 1, node, m =>
    if node = 0 then some 0
    else if c node < 0 then matchFind c fuel (m.child .left node) m
    else if 0 < c node then matchFind c fuel (m.child .right node) m
    else some node

end RbMem

/-- `struct eh_rbtree_root`, with the nodes. -/
structure RbRoot extends RbMem where
  rbLeftmost : Nat
  cmp : Nat → Nat → Int

namespace RbRoot

/-- `eh_rb_root_init`, over nodes of any contents. -/
def rootInit (node : Nat → RbNode) (cmp : Nat → Nat → Int) : RbRoot := ⟨⟨node, 0⟩, 0, cmp⟩

/-- `rb_link_node`, the update of `rb_leftmost` and `rb_insert_color`. -/
def link (fuel : Nat) (tree : RbRoot) (node : Nat) (place : Link × Nat × Bool) :
    Option RbRoot :=
  let m := tree.rbLinkNode node place.2.1 place.1
  let leftmost := if place.2.2 then node else tree.rbLeftmost
  (m.rbInsert fuel node (m.rbRedParent node)).map fun m => ⟨m, leftmost, tree.cmp⟩

def ehRbAdd (fuel node : Nat) (tree : RbRoot) : Option (RbRoot × Nat) :=
  (tree.descend (fun parent => if tree.cmp node parent < 0 then -1 else 1) fuel .root 0
    true).bind fun
    | .inl _ => none
    | .inr place => (tree.link fuel node place).map fun tree =>
        (tree, if place.2.2 then node else 0)

def ehRbFindAdd (fuel node : Nat) (tree : RbRoot) : Option (RbRoot × Nat) :=
  (tree.descend (tree.cmp node) fuel .root 0 true).bind fun
    | .inl parent => some (tree, parent)
    | .inr place => (tree.link fuel node place).map fun tree => (tree, node)

/-- `eh_rb_find_new_add`; `cmp` is the comparison with the key, `newNode` what the callback
returns. -/
def ehRbFindNewAdd (fuel : Nat) (cmp : Nat → Int) (newNode : Nat) (tree : RbRoot) :
    Option (RbRoot × Nat) :=
  (tree.descend cmp fuel .root 0 true).bind fun
    | .inl parent => some (tree, parent)
    | .inr place =>
      if newNode = 0 then some (tree, 0)
      else (tree.link fuel newNode place).map fun tree => (tree, newNode)

def ehRbMatchFind (fuel : Nat) (c : Nat → Int) (tree : RbRoot) : Option Nat :=
  tree.matchFind c fuel tree.rbNode

def ehRbDel (fuel node : Nat) (tree : RbRoot) : Option (RbRoot × Nat) :=
  (if tree.rbLeftmost = node
    then (tree.ehRbNext fuel node).map fun next => (next, next)
    else some (tree.rbLeftmost, 0)).bind fun (rbLeftmost, leftmost) =>
  (tree.rbDel fuel node).bind fun (m, rebalance) =>
  (if rebalance ≠ 0 then m.eraseColor fuel 0 rebalance else some m).map fun m =>
    (⟨m, rbLeftmost, tree.cmp⟩, leftmost)

end RbRoot

end EventHub.RbTree
