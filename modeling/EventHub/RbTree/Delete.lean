import EventHub.RbTree.Tree

/-! Deletion: `eh_rb_next`, `__rb_del` and the rebalancing `____rb_erase_color`. -/

namespace EventHub.RbTree
variable {α : Type}

structure Cursor (α : Type) where
  color : Color
  left : Tree α
  val : α
  right : Tree α
  path : Path α

/-- The node at its address `x`. -/
def locate [DecidableEq α] (x : α) : Tree α → Path α → Option (Cursor α)
  | .nil, _ => none
  | .node c l y r, path =>
    if x = y then some ⟨c, l, y, r, path⟩
    else (locate x l (⟨.left, c, y, r⟩ :: path)).or (locate x r (⟨.right, c, y, l⟩ :: path))

/-- Down and then left as far as it goes, from the node `y`; the new ancestors are put on
the path. -/
def descendLeft (c : Color) : Tree α → α → Tree α → Path α → Cursor α
  | .nil, y, r, path => ⟨c, .nil, y, r, path⟩
  | .node c' l' y' r', y, r, path => descendLeft c' l' y' r' (⟨.left, c, y, r⟩ :: path)

def Path.nextUp : Path α → Option α
  | [] => none
  | ⟨.left, _, x, _⟩ :: _ => some x
  | ⟨.right, _, _, _⟩ :: up => nextUp up

def Cursor.ehRbNext (n : Cursor α) : Option α :=
  match n.right with
  | .nil => n.path.nextUp
  | .node c l y r => some (descendLeft c l y r []).val

/-- Cases 2 to 4 of `____rb_erase_color` at the parent `p` of colour `c`: `t` is one black
short and `s` with the children `near` and `far` is the sibling. The result stands in the
parent's place, and is one black short itself where the flag is set. -/
def eraseSibling (d : Dir) (c : Color) (t : Tree α) (p : α) (near : Tree α) (s : α)
    (far : Tree α) : Tree α × Bool :=
  if far.isRed then
    -- case 4: rotate at the parent
    (d.join c (d.join .black t p near) s far.setBlack, false)
  else
    match near with
    | .node .red l y r =>
      -- case 3: rotate at the sibling first
      (d.join c (d.join .black t p (d.pick l r)) y
        (d.join .black (d.pick r l).setBlack s far), false)
    | _ =>
      -- case 2: colour flip
      (d.join .black t p (d.join .red near s far), c == .black)

/-- `____rb_erase_color`: the subtree `t` at the path is one black short; `none` where
`NULL` is followed. -/
def eraseColor (t : Tree α) : Path α → Option (Tree α)
  | [] => some t
  | ⟨_, _, _, .nil⟩ :: _ => none
  | ⟨d, c, p, .node .black l s r⟩ :: up =>
    let (t', short) := eraseSibling d c t p (d.pick l r) s (d.pick r l)
    if short then eraseColor t' up else some (zip t' up)
  | ⟨d, c, p, .node .red l s r⟩ :: up =>
    -- case 1: rotate at the parent, which is red below the sibling; so the loop ends here
    match d.pick l r with
    | .nil => none
    | .node _ l' s' r' =>
      let (t', _) := eraseSibling d .red t p (d.pick l' r') s' (d.pick r' l')
      some (zip (d.join c t' s (d.pick r l)) up)

/-- The part of `__rb_del` for two children: the successor `s`, lowest on the left below
the right child, takes the node's place and colour. -/
def replaceNode (s : Cursor α) (c : Color) (left : Tree α) (path : Path α) :
    Option (Tree α) :=
  let path := s.path ++ ⟨.right, c, s.val, left⟩ :: path
  match s.right with
  | .node _ l y r => some (zip (.node .black l y r) path)
  | .nil => if s.color = .black then eraseColor .nil path else some (zip .nil path)

/-- `__rb_del` with the rebalancing that follows it in `eh_rb_del`. -/
def rbDel (n : Cursor α) : Option (Tree α) :=
  match n.left, n.right with
  | .nil, .node _ l y r => some (zip (.node n.color l y r) n.path)
  | .nil, .nil =>
    if n.color = .black then eraseColor .nil n.path else some (zip .nil n.path)
  | .node _ l y r, .nil => some (zip (.node n.color l y r) n.path)
  | left, .node c l y r => replaceNode (descendLeft c l y r []) n.color left n.path

/-- The result is the new leftmost node where the deleted one was the leftmost, else
`NULL`. -/
def Root.ehRbDel [DecidableEq α] (t : Root α) (x : α) : Option (Root α × Option α) :=
  match locate x t.tree [] with
  | none => none
  | some n =>
    (rbDel n).map fun tree =>
      if t.leftmost = some x then (⟨tree, n.ehRbNext⟩, n.ehRbNext)
      else (⟨tree, t.leftmost⟩, none)

theorem PathBal.of_red {p : Path α} {n : Nat} (h : PathBal p .red n) (c : Color) :
    PathBal p c n := by
  cases h with
  | black sibling rest => exact .black sibling rest

def height : Color → Nat → Nat
  | .red, n => n
  | .black, n => n + 1

theorem Bal.joinAny {d : Dir} {c : Color} {l r : Tree α} {x : α} {n : Nat}
    (hl : Bal l .black n) (hr : Bal r .black n) : Bal (d.join c l x r) c (height c n) := by
  cases c
  · exact .joinRed hl hr
  · exact .joinBlack hl hr

/-- A rebalanced subtree has the parent's height, or lacks one black in a black place; it
is red only where the parent was. -/
theorem eraseSibling_bal {d : Dir} {c e f : Color} {t near far : Tree α} {p s : α} {n : Nat}
    (ht : Bal t .black n) (hn : Bal near e n) (hf : Bal far f n) :
    (eraseSibling d c t p near s far).2 = true ∧ c = .black ∧
      Bal (eraseSibling d c t p near s far).1 .black (n + 1) ∨
    (eraseSibling d c t p near s far).2 = false ∧
      ∃ k, Bal (eraseSibling d c t p near s far).1 k (height c (n + 1)) ∧
        (c = .black → k = .black) := by
  unfold eraseSibling
  split
  · rename_i red
    have black := (hf.isRed_iff.mp red ▸ hf).setBlack_red
    exact .inr ⟨rfl, c, (ht.joinBlack hn).joinAny black, id⟩
  · rename_i notRed
    have hf := hf.black_of_not_red notRed
    split
    · cases hn with
      | red hl hr =>
        rw [(hr.pick hl).setBlack_black]
        exact .inr ⟨rfl, c, (ht.joinBlack (hl.pick hr)).joinAny ((hr.pick hl).joinBlack hf), id⟩
    · rename_i other
      have hn : Bal near .black n := by
        cases hn with
        | nil => exact .nil
        | red => exact absurd rfl (other _ _ _)
        | black hl hr => exact .black hl hr
      have flipped := ht.joinBlack (d := d) (x := p) (hn.joinRed hf (d := d) (x := s))
      cases c
      · exact .inr ⟨rfl, .black, flipped, by simp⟩
      · exact .inl ⟨rfl, rfl, flipped⟩

theorem eraseSibling_toList (d : Dir) (c : Color) (t : Tree α) (p : α) (near : Tree α) (s : α)
    (far : Tree α) : (eraseSibling d c t p near s far).1.toList =
      (d.join c t p (d.join .black near s far)).toList := by
  unfold eraseSibling
  split
  · cases d <;> simp [Dir.join, Dir.pick, Tree.toList]
  split <;> cases d <;> simp [Dir.join, Dir.pick, Tree.toList]

theorem PathBal.parent {d : Dir} {c : Color} {p : α} {s : Tree α} {up : Path α} {n : Nat}
    (h : PathBal (⟨d, c, p, s⟩ :: up) .black n) :
    (∃ e, Bal s e n ∧ (c = .red → e = .black)) ∧
      ∀ k, (c = .black → k = .black) → PathBal up k (height c n) := by
  cases h with
  | red sibling rest => exact ⟨⟨_, sibling, fun _ => rfl⟩, fun k _ => rest.of_red k⟩
  | black sibling rest => exact ⟨⟨_, sibling, by simp⟩, fun k black => by
    rw [black rfl]
    exact rest⟩

theorem Bal.pick_any {d : Dir} {l r : Tree α} {e f : Color} {n : Nat} (hl : Bal l e n)
    (hr : Bal r f n) : ∃ k, Bal (d.pick l r) k n := by
  cases d
  · exact ⟨e, hl⟩
  · exact ⟨f, hr⟩

theorem eraseColor_bal {t : Tree α} {path : Path α} {n : Nat} (ht : Bal t .black n)
    (hp : PathBal path .black (n + 1)) :
    ∃ t', eraseColor t path = some t' ∧ ∃ m, Bal t' .black m := by
  fun_induction eraseColor t path generalizing n with
  | case1 t => exact ⟨t, rfl, n, ht⟩
  | case2 t d c p up =>
    obtain ⟨⟨e, sibling, -⟩, -⟩ := hp.parent
    cases sibling
  | case3 t d c p l s r up t' eq ih =>
    obtain ⟨⟨e, sibling, -⟩, place⟩ := hp.parent
    cases sibling with
    | black hl hr =>
      obtain ⟨a, near⟩ := hl.pick_any hr (d := d)
      obtain ⟨b, far⟩ := hr.pick_any hl (d := d)
      rcases eraseSibling_bal (d := d) (c := c) (p := p) (s := s) ht near far with
        ⟨-, rfl, bal⟩ | ⟨ends, -⟩
      · rw [eq] at bal
        exact ih bal (place .black fun _ => rfl)
      · rw [eq] at ends
        cases ends
  | case4 t d c p l s r up t' short eq ends =>
    obtain ⟨⟨e, sibling, -⟩, place⟩ := hp.parent
    cases sibling with
    | black hl hr =>
      obtain ⟨a, near⟩ := hl.pick_any hr (d := d)
      obtain ⟨b, far⟩ := hr.pick_any hl (d := d)
      rcases eraseSibling_bal (d := d) (c := c) (p := p) (s := s) ht near far with
        ⟨isShort, -⟩ | ⟨-, k, bal, root⟩
      · rw [eq] at isShort
        exact absurd isShort ends
      · rw [eq] at bal
        exact ⟨_, rfl, bal.zip (place k root)⟩
  | case5 t d c p l s r up null =>
    obtain ⟨⟨e, sibling, -⟩, -⟩ := hp.parent
    cases sibling with
    | red hl hr =>
      have near := hl.pick hr (d := d)
      rw [null] at near
      cases near
  | case6 t d c p l s r up color l' s' r' node t' short eq =>
    obtain ⟨⟨e, sibling, black⟩, place⟩ := hp.parent
    cases sibling with
    | red hl hr =>
      cases c with
      | red => exact absurd (black rfl) (by decide)
      | black =>
        have near := hl.pick hr (d := d)
        rw [node] at near
        cases near with
        | black hl' hr' =>
          obtain ⟨a, near⟩ := hl'.pick_any hr' (d := d)
          obtain ⟨b, far⟩ := hr'.pick_any hl' (d := d)
          rcases eraseSibling_bal (d := d) (c := .red) (p := p) (s := s') ht near far with
            ⟨-, red, -⟩ | ⟨-, k, bal, -⟩
          · cases red
          · rw [eq] at bal
            exact ⟨_, rfl, (bal.joinBlack (hr.pick hl)).zip (place .black fun _ => rfl)⟩

theorem eraseColor_toList {t t' : Tree α} {path : Path α} (h : eraseColor t path = some t') :
    t'.toList = (zip t path).toList := by
  fun_induction eraseColor t path with
  | case1 t =>
    cases h
    rfl
  | case2 t d c p up => cases h
  | case3 t d c p l s r up u eq ih =>
    have same := eraseSibling_toList d c t p (d.pick l r) s (d.pick r l)
    rw [eq] at same
    rw [ih h, toList_zip_congr same, zip]
    cases d <;> rfl
  | case4 t d c p l s r up u short eq ends =>
    have same := eraseSibling_toList d c t p (d.pick l r) s (d.pick r l)
    rw [eq] at same
    cases h
    rw [toList_zip_congr same, zip]
    cases d <;> rfl
  | case5 t d c p l s r up null => cases h
  | case6 t d c p l s r up color l' s' r' node u short eq =>
    have same := eraseSibling_toList d .red t p (d.pick l' r') s' (d.pick r' l')
    rw [eq] at same
    cases h
    refine toList_zip_congr ?_ up
    have near : (d.pick l r).toList = l'.toList ++ s' :: r'.toList := by
      rw [node, Tree.toList]
    cases d <;> simp_all [Dir.join, Dir.pick, Tree.toList]

def Cursor.tree (n : Cursor α) : Tree α := .node n.color n.left n.val n.right

theorem locate_spec [DecidableEq α] {x : α} {t : Tree α} {path : Path α} {n : Cursor α}
    (h : locate x t path = some n) : n.val = x ∧ zip n.tree n.path = zip t path := by
  induction t generalizing path with
  | nil => cases h
  | node c l y r ihl ihr =>
    rw [locate] at h
    split at h
    · cases h
      exact ⟨(‹x = y›).symm, rfl⟩
    · rcases Option.or_eq_some_iff.mp h with h | ⟨-, h⟩
      · exact ihl h
      · exact ihr h

theorem locate_of_mem [DecidableEq α] {x : α} {t : Tree α} (mem : x ∈ t.toList)
    (path : Path α) : ∃ n, locate x t path = some n := by
  induction t generalizing path with
  | nil => cases mem
  | node c l y r ihl ihr =>
    rw [locate]
    split
    · exact ⟨_, rfl⟩
    rw [Tree.toList, List.mem_append, List.mem_cons] at mem
    rcases mem with mem | rfl | mem
    · obtain ⟨n, found⟩ := ihl mem (⟨.left, c, y, r⟩ :: path)
      exact ⟨n, by rw [found, Option.some_or]⟩
    · exact absurd rfl ‹¬_›
    · obtain ⟨n, found⟩ := ihr mem (⟨.right, c, y, l⟩ :: path)
      rw [found]
      cases locate x l (⟨.left, c, y, r⟩ :: path) with
      | none => exact ⟨n, rfl⟩
      | some m => exact ⟨m, rfl⟩

theorem descendLeft_spec (c : Color) (l : Tree α) (y : α) (r : Tree α) (path : Path α) :
    (descendLeft c l y r path).left = .nil ∧
      zip (descendLeft c l y r path).tree (descendLeft c l y r path).path =
        zip (.node c l y r) path ∧
      (descendLeft c l y r path).path.before = path.before := by
  fun_induction descendLeft c l y r path with
  | case1 c y r path => exact ⟨rfl, rfl, rfl⟩
  | case2 c c' l' y' r' y r path ih => exact ih

theorem Path.nextUp_eq (path : Path α) : path.nextUp = path.after.head? := by
  fun_induction Path.nextUp path with
  | case1 => rfl
  | case2 => rfl
  | case3 _ _ _ up ih => exact ih

theorem Cursor.ehRbNext_eq (n : Cursor α) :
    n.ehRbNext = (n.right.toList ++ n.path.after).head? := by
  unfold Cursor.ehRbNext
  split
  · rename_i null
    rw [null, Path.nextUp_eq]
    rfl
  · rename_i c l y r node
    obtain ⟨left, same, before⟩ := descendLeft_spec c l y r []
    have list := congrArg Tree.toList same
    rw [toList_zip, before, Cursor.tree, left] at list
    rw [node, ← show zip (.node c l y r) [] = Tree.node c l y r from rfl, ← list]
    simp [Path.before, Tree.toList]

theorem eraseLeaf_spec {x : α} {c e : Color} {path : Path α} {n : Nat}
    (bal : Bal (.node c .nil x .nil) e n) (hp : PathBal path e n) :
    ∃ t, (if c = .black then eraseColor .nil path else some (zip .nil path)) = some t ∧
      (∃ m, Bal t .black m) ∧ t.toList = path.before ++ path.after := by
  cases bal with
  | red hl hr =>
    cases hl
    exact ⟨_, rfl, Bal.nil.zip (hp.of_red .black), by simp [toList_zip, Tree.toList]⟩
  | black hl hr =>
    cases hl
    obtain ⟨t, run, m, bal⟩ := eraseColor_bal .nil hp
    refine ⟨t, run, ⟨m, bal⟩, ?_⟩
    rw [eraseColor_toList run]
    simp [toList_zip, Tree.toList]

theorem Bal.only_right {x y : α} {c e k : Color} {l r : Tree α} {n : Nat}
    (h : Bal (.node c .nil x (.node k l y r)) e n) (c' : Color) (black : c' = .black ∨ c' = c) :
    Bal (.node c' l y r) e n := by
  cases h with
  | red hl hr =>
    cases hl
    cases hr
  | black hl hr =>
    cases hl
    cases hr with
    | red hl hr => simpa using (by rcases black with rfl | rfl <;> exact .black hl hr)

theorem Bal.only_left {x y : α} {c e k : Color} {l r : Tree α} {n : Nat}
    (h : Bal (.node c (.node k l y r) x .nil) e n) : Bal (.node c l y r) e n := by
  cases h with
  | red hl hr =>
    cases hr
    cases hl
  | black hl hr =>
    cases hr
    cases hl with
    | red hl hr => exact .black hl hr

theorem Bal.replace {x : α} {c e : Color} {l r : Tree α} {n : Nat}
    (h : Bal (.node c l x r) e n) (y : α) : Bal (.node c l y r) e n := by
  cases h with
  | red hl hr => exact .red hl hr
  | black hl hr => exact .black hl hr

theorem replaceNode_spec {s : Cursor α} {c e : Color} {left right : Tree α} {x : α}
    {path : Path α} {n : Nat} (bal : Bal (.node c left x right) e n) (hp : PathBal path e n)
    (leftNil : s.left = .nil) (same : zip s.tree s.path = right) (first : s.path.before = []) :
    ∃ t, replaceNode s c left path = some t ∧ (∃ m, Bal t .black m) ∧
      t.toList = path.before ++ (left.toList ++ (right.toList ++ path.after)) := by
  obtain ⟨color, sl, y, sr, sp⟩ := s
  simp only [Cursor.tree] at leftNil same first
  subst leftNil
  -- the whole tree with the successor in the node's place, and still in its own
  have shape : zip (.node c left y right) path =
      zip (.node color .nil y sr) (sp ++ ⟨.right, c, y, left⟩ :: path) := by
    rw [zip_append, same]
    rfl
  obtain ⟨m, whole⟩ := (bal.replace y).zip hp
  rw [shape] at whole
  obtain ⟨f, k, sBal, sPath⟩ := whole.of_zip
  have before : Path.before (sp ++ ⟨.right, c, y, left⟩ :: path) =
      path.before ++ (left.toList ++ [y]) := by
    rw [Path.before_append, first]
    simp [Path.before]
  have right : y :: (sr.toList ++ sp.after) = right.toList := by
    rw [← same, toList_zip, first]
    simp [Tree.toList]
  cases sr with
  | nil =>
    obtain ⟨t, run, bal', list⟩ := eraseLeaf_spec sBal sPath
    refine ⟨t, run, bal', ?_⟩
    rw [list, before, Path.after_append, ← right]
    simp [Path.after, Tree.toList]
  | node c₂ l₂ y₂ r₂ =>
    refine ⟨_, rfl, (sBal.only_right .black (.inl rfl)).zip sPath, ?_⟩
    rw [toList_zip, before, Path.after_append, ← right]
    simp [Path.after, Tree.toList]

theorem rbDel_spec {n : Cursor α} {m : Nat} (h : Bal (zip n.tree n.path) .black m) :
    ∃ t, rbDel n = some t ∧ (∃ m, Bal t .black m) ∧
      t.toList = n.path.before ++ (n.left.toList ++ (n.right.toList ++ n.path.after)) := by
  obtain ⟨color, left, x, right, path⟩ := n
  obtain ⟨e, k, bal, hp⟩ := h.of_zip
  simp only [Cursor.tree] at bal hp ⊢
  cases left with
  | nil =>
    cases right with
    | nil => exact eraseLeaf_spec bal hp
    | node c l y r =>
      refine ⟨_, rfl, (bal.only_right color (.inr rfl)).zip hp, ?_⟩
      rw [toList_zip]
      simp [Tree.toList]
  | node c l y r =>
    cases right with
    | nil =>
      refine ⟨_, rfl, bal.only_left.zip hp, ?_⟩
      rw [toList_zip]
      simp [Tree.toList]
    | node c' l' y' r' =>
      obtain ⟨leftNil, same, first⟩ := descendLeft_spec c' l' y' r' []
      exact replaceNode_spec bal hp leftNil same first

theorem Root.ehRbDel_spec [DecidableEq α] {t : Root α} {x : α} (wf : t.Wf)
    (nodup : t.nodes.Nodup) (mem : x ∈ t.nodes) :
    ∃ t' before after, t.ehRbDel x = some (t', if before = [] then after.head? else none) ∧
      t'.Wf ∧ t.nodes = before ++ x :: after ∧ t'.nodes = before ++ after := by
  obtain ⟨⟨m, bal⟩, first⟩ := wf
  obtain ⟨n, found⟩ := locate_of_mem mem []
  obtain ⟨rfl, same⟩ := locate_spec found
  have whole : Bal (zip n.tree n.path) .black m := by
    rw [same]
    exact bal
  obtain ⟨tree, run, bal', list⟩ := rbDel_spec whole
  have nodes : t.nodes = (n.path.before ++ n.left.toList) ++
      n.val :: (n.right.toList ++ n.path.after) := by
    have := congrArg Tree.toList same
    rw [toList_zip, Cursor.tree] at this
    simpa [Tree.toList] using Eq.symm (this.trans rfl : _ = t.nodes)
  have list : tree.toList = (n.path.before ++ n.left.toList) ++
      (n.right.toList ++ n.path.after) := by
    rw [list, List.append_assoc]
  generalize n.path.before ++ n.left.toList = before at nodes list
  have next := n.ehRbNext_eq
  generalize n.right.toList ++ n.path.after = after at nodes list next
  rw [ehRbDel, found]
  simp only [run, Option.map_some]
  by_cases empty : before = []
  · subst empty
    refine ⟨⟨tree, n.ehRbNext⟩, [], after, ?_, ⟨bal', ?_⟩, nodes, list⟩
    · rw [if_pos (by rw [first, nodes]; rfl), if_pos rfl, next]
    · rw [next, Root.nodes, list]
      rfl
  · refine ⟨⟨tree, t.leftmost⟩, before, after, ?_, ⟨bal', ?_⟩, nodes, list⟩
    · rw [if_neg ?_, if_neg empty]
      rw [first, nodes, List.head?_append_of_ne_nil _ empty]
      intro head
      rw [nodes] at nodup
      exact (List.nodup_append.mp nodup).2.2 n.val (List.mem_of_head? head) n.val
        (by simp) rfl
    · rw [Root.nodes, list, first, nodes, List.head?_append_of_ne_nil _ empty,
        List.head?_append_of_ne_nil _ empty]

end EventHub.RbTree
