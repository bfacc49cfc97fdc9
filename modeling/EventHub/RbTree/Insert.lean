import EventHub.RbTree.Tree

/-! Insertion: `eh_rb_add`, `eh_rb_find_add` and `eh_rb_find_new_add` descend to a free
place and link the new node there; `__rb_insert` restores the balance. -/

namespace EventHub.RbTree
variable {α : Type}

/-- The loop of `__rb_insert` at the red node `x` with children `l` and `r`; `none` where
the grandparent read is `NULL`. -/
def rbInsert (l : Tree α) (x : α) (r : Tree α) : Path α → Option (Tree α)
  | [] => some (.node .black l x r)
  | ⟨d, .black, p, s⟩ :: up => some (zip (d.join .black (.node .red l x r) p s) up)
  | [⟨_, .red, _, _⟩] => none
  | ⟨d, .red, p, s⟩ :: ⟨e, c, g, u⟩ :: up =>
    if u.isRed then
      -- case 1: colour flips, and once more at the grandparent
      rbInsert (e.pick (d.join .black (.node .red l x r) p s) u.setBlack) g
        (e.pick u.setBlack (d.join .black (.node .red l x r) p s)) up
    else if d = e then
      -- case 3: rotate at the grandparent
      some (zip (e.join c (.node .red l x r) p (e.join .red s.setBlack g u)) up)
    else
      -- case 2: rotate at the parent first
      some (zip (e.join c (e.join .red s p (e.pick l r).setBlack) x
        (e.join .red (e.pick r l).setBlack g u)) up)

/-- The descent shared by the three functions: the node that compares equal, or the free
place and whether no step went right. -/
def descend (cmp : α → Ordering) : Tree α → Path α → Bool → α ⊕ (Path α × Bool)
  | .nil, path, leftmost => .inr (path, leftmost)
  | .node c l y r, path, leftmost =>
    match cmp y with
    | .lt => descend cmp l (⟨.left, c, y, r⟩ :: path) leftmost
    | .gt => descend cmp r (⟨.right, c, y, l⟩ :: path) false
    | .eq => .inl y

namespace Root

/-- `rb_link_node`, the update of `rb_leftmost` and `rb_insert_color`. -/
def link (t : Root α) (x : α) (path : Path α) (leftmost : Bool) : Option (Root α) :=
  (rbInsert .nil x .nil path).map fun tree =>
    ⟨tree, if leftmost then some x else t.leftmost⟩

/-- `lt y` is `cmp(node, y) < 0`; the result says whether the new node is the leftmost. -/
def ehRbAdd (t : Root α) (lt : α → Bool) (x : α) : Option (Root α × Bool) :=
  match descend (fun y => if lt y then .lt else .gt) t.tree [] true with
  | .inl _ => none
  | .inr (path, leftmost) => (t.link x path leftmost).map fun t' => (t', leftmost)

def ehRbFindAdd (t : Root α) (cmp : α → Ordering) (x : α) : Option (Root α × α) :=
  match descend cmp t.tree [] true with
  | .inl y => some (t, y)
  | .inr (path, leftmost) => (t.link x path leftmost).map fun t' => (t', x)

/-- `newNode` is the result of the callback, `none` for `NULL`. -/
def ehRbFindNewAdd (t : Root α) (cmp : α → Ordering) (newNode : Option α) :
    Option (Root α × Option α) :=
  match descend cmp t.tree [] true with
  | .inl y => some (t, some y)
  | .inr (path, leftmost) =>
    match newNode with
    | none => some (t, none)
    | some x => (t.link x path leftmost).map fun t' => (t', some x)

/-- `eh_rb_match_find`, below a node. -/
def matchFind (cmp : α → Ordering) : Tree α → Option α
  | .nil => none
  | .node _ l y r =>
    match cmp y with
    | .lt => matchFind cmp l
    | .gt => matchFind cmp r
    | .eq => some y

def ehRbMatchFind (t : Root α) (cmp : α → Ordering) : Option α := matchFind cmp t.tree

end Root

/-- The new node, or the grandparent the loop goes on at, is red in a place that takes a
black subtree of the same height. -/
theorem rbInsert_bal {l r : Tree α} {x : α} {path : Path α} {n : Nat} (hl : Bal l .black n)
    (hr : Bal r .black n) (hp : PathBal path .black n) :
    ∃ t, rbInsert l x r path = some t ∧ ∃ m, Bal t .black m := by
  fun_induction rbInsert l x r path generalizing n with
  | case1 l x r => exact ⟨_, rfl, _, .black hl hr⟩
  | case2 l x r d p s up =>
    cases hp with
    | black sibling rest => exact ⟨_, rfl, (Bal.joinBlack (.red hl hr) sibling).zip rest⟩
  | case3 l x r d p s =>
    cases hp with
    | red _ rest => cases rest
  | case4 l x r d p s e c g u up uncle ih =>
    cases hp with
    | red sibling rest =>
      cases rest with
      | black hu rest =>
        have black := (hu.isRed_iff.mp uncle ▸ hu).setBlack_red
        have flipped : Bal (d.join .black (.node .red l x r) p s) .black _ :=
          .joinBlack (.red hl hr) sibling
        exact ih (.pick flipped black) (.pick black flipped) rest
  | case5 l x r p s e c g u up uncle =>
    cases hp with
    | red sibling rest =>
      cases rest with
      | black hu rest =>
        rw [sibling.setBlack_black]
        exact ⟨_, rfl, (Bal.joinBlack (.red hl hr)
          (.joinRed sibling (hu.black_of_not_red uncle))).zip rest⟩
  | case6 l x r d p s e c g u up uncle ne =>
    cases hp with
    | red sibling rest =>
      cases rest with
      | black hu rest =>
        rw [(Bal.pick hl hr).setBlack_black, (Bal.pick hr hl).setBlack_black]
        exact ⟨_, rfl, (Bal.joinBlack (.joinRed sibling (.pick hl hr))
          (.joinRed (.pick hr hl) (hu.black_of_not_red uncle))).zip rest⟩

theorem rbInsert_toList {l r t : Tree α} {x : α} {path : Path α}
    (h : rbInsert l x r path = some t) :
    t.toList = path.before ++ (l.toList ++ x :: r.toList ++ path.after) := by
  fun_induction rbInsert l x r path with
  | case1 l x r =>
    cases h
    simp [Tree.toList, Path.before, Path.after]
  | case2 l x r d p s up =>
    cases h
    rw [toList_zip]
    cases d <;> simp [Dir.join, Dir.pick, Tree.toList, Path.before, Path.after]
  | case3 l x r d p s => cases h
  | case4 l x r d p s e c g u up uncle ih =>
    rw [ih h]
    cases d <;> cases e <;>
      simp [Dir.join, Dir.pick, Tree.toList, Path.before, Path.after]
  | case5 l x r p s e c g u up uncle =>
    cases h
    rw [toList_zip]
    cases e <;> simp [Dir.join, Dir.pick, Tree.toList, Path.before, Path.after]
  | case6 l x r d p s e c g u up uncle ne =>
    cases h
    rw [toList_zip]
    cases d <;> cases e <;>
      simp_all [Dir.join, Dir.pick, Tree.toList, Path.before, Path.after]

/-- What a descent leaves: every ancestor it passed compares as it turned, so the place is
after a node that compares greater and before one that compares less. -/
structure Place (cmp : α → Ordering) (path : Path α) (leftmost : Bool) : Prop where
  before : ∀ y ∈ path.before.getLast?, cmp y = .gt
  after : ∀ y ∈ path.after.head?, cmp y = .lt
  leftmost : leftmost = path.before.isEmpty

theorem Place.start (cmp : α → Ordering) : Place cmp [] true :=
  ⟨by simp [Path.before], by simp [Path.after], rfl⟩

theorem descend_place {cmp : α → Ordering} {t : Tree α} {p path : Path α}
    {start leftmost : Bool} (hs : Place cmp p start)
    (h : descend cmp t p start = .inr (path, leftmost)) :
    Place cmp path leftmost ∧ zip .nil path = zip t p := by
  induction t generalizing p start with
  | nil =>
    cases h
    exact ⟨hs, rfl⟩
  | node c l y r ihl ihr =>
    rw [descend] at h
    cases turn : cmp y with
    | lt =>
      rw [turn] at h
      refine ihl (p := ⟨.left, c, y, r⟩ :: p) ⟨hs.before, ?_, hs.leftmost⟩ h
      simp [Path.after, turn]
    | gt =>
      rw [turn] at h
      refine ihr (p := ⟨.right, c, y, l⟩ :: p) ⟨?_, hs.after, ?_⟩ h
      · simp [Path.before, turn]
      · simp [Path.before]
    | eq =>
      rw [turn] at h
      cases h

theorem descend_found {cmp : α → Ordering} {t : Tree α} {p : Path α} {start : Bool} {y : α}
    (h : descend cmp t p start = .inl y) : y ∈ t.toList ∧ cmp y = .eq := by
  induction t generalizing p start with
  | nil => cases h
  | node c l z r ihl ihr =>
    rw [descend] at h
    rw [Tree.toList, List.mem_append, List.mem_cons]
    split at h
    · exact ⟨.inl (ihl h).1, (ihl h).2⟩
    · exact ⟨.inr (.inr (ihr h).1), (ihr h).2⟩
    · cases h
      exact ⟨.inr (.inl rfl), ‹_›⟩

namespace Root
variable {t : Root α} {cmp : α → Ordering} {x : α}

theorem link_spec {path : Path α} {leftmost : Bool} (wf : t.Wf)
    (h : descend cmp t.tree [] true = .inr (path, leftmost)) (x : α) :
    ∃ t', t.link x path leftmost = some t' ∧ t'.Wf ∧ leftmost = path.before.isEmpty ∧
      t.nodes = path.before ++ path.after ∧ t'.nodes = path.before ++ x :: path.after ∧
      (∀ y ∈ path.before.getLast?, cmp y = .gt) ∧ ∀ y ∈ path.after.head?, cmp y = .lt := by
  obtain ⟨⟨n, bal⟩, first⟩ := wf
  obtain ⟨place, same⟩ := descend_place (.start cmp) h
  have whole : Bal (zip .nil path) .black n := by
    rw [same]
    exact bal
  obtain ⟨c, k, null, balPath⟩ := whole.of_zip
  cases null
  obtain ⟨tree, run, m, bal'⟩ := rbInsert_bal (x := x) .nil .nil balPath
  have nodes : t.nodes = path.before ++ path.after := by
    have := congrArg Tree.toList same
    rw [toList_zip] at this
    exact this.symm
  have nodes' : tree.toList = path.before ++ x :: path.after := by
    rw [rbInsert_toList run]
    simp [Tree.toList]
  refine ⟨⟨tree, if leftmost then some x else t.leftmost⟩, by simp [link, run],
    ⟨⟨m, bal'⟩, ?_⟩, place.leftmost, nodes, nodes', place.before, place.after⟩
  rw [first, nodes, place.leftmost, Root.nodes, nodes']
  cases path.before <;> simp

/-- The new node goes between two neighbours, after the left one and before the right one;
it is returned where it is the first. -/
theorem ehRbAdd_spec (wf : t.Wf) (lt : α → Bool) (x : α) :
    ∃ t' before after, t.ehRbAdd lt x = some (t', before.isEmpty) ∧ t'.Wf ∧
      t.nodes = before ++ after ∧ t'.nodes = before ++ x :: after ∧
      (∀ y ∈ before.getLast?, lt y = false) ∧ ∀ y ∈ after.head?, lt y = true := by
  have turns : ∀ y, (if lt y then Ordering.lt else .gt) ≠ .eq := fun y => by
    split <;> decide
  cases found : descend (fun y => if lt y then Ordering.lt else .gt) t.tree [] true with
  | inl y => exact absurd (descend_found found).2 (turns y)
  | inr place =>
    obtain ⟨path, leftmost⟩ := place
    obtain ⟨t', run, wf', first, nodes, nodes', before, after⟩ := link_spec wf found x
    refine ⟨t', path.before, path.after, ?_, wf', nodes, nodes', fun y mem => ?_,
      fun y mem => ?_⟩
    · simp [ehRbAdd, found, ← first, run]
    · simpa using before y mem
    · simpa using after y mem

/-- Along the list `cmp` goes from `gt` over `eq` to `lt`. -/
def Ordered (cmp : α → Ordering) (l : List α) : Prop :=
  l.Pairwise fun a b => (cmp b = .gt → cmp a = .gt) ∧ (cmp a = .lt → cmp b = .lt)

theorem Ordered.all_gt {l : List α} (h : Ordered cmp l)
    (last : ∀ y ∈ l.getLast?, cmp y = .gt) : ∀ y ∈ l, cmp y = .gt := by
  rcases List.eq_nil_or_concat' l with rfl | ⟨l, a, rfl⟩
  · simp
  · intro y mem
    have gt : cmp a = .gt := last a (by simp)
    rcases List.mem_append.mp mem with mem | mem
    · exact ((List.pairwise_append.mp h).2.2 y mem a (by simp)).1 gt
    · rwa [List.mem_singleton.mp mem]

theorem Ordered.all_lt {l : List α} (h : Ordered cmp l)
    (first : ∀ y ∈ l.head?, cmp y = .lt) : ∀ y ∈ l, cmp y = .lt := by
  cases l with
  | nil => simp
  | cons a l =>
    intro y mem
    have lt : cmp a = .lt := first a rfl
    rcases List.mem_cons.mp mem with rfl | mem
    · exact lt
    · exact ((List.pairwise_cons.mp h).1 y mem).2 lt

theorem ordered_place {path : Path α} (ordered : Ordered cmp t.nodes)
    (nodes : t.nodes = path.before ++ path.after)
    (before : ∀ y ∈ path.before.getLast?, cmp y = .gt)
    (after : ∀ y ∈ path.after.head?, cmp y = .lt) :
    (∀ y ∈ path.before, cmp y = .gt) ∧ ∀ y ∈ path.after, cmp y = .lt := by
  rw [nodes] at ordered
  obtain ⟨left, right, -⟩ := List.pairwise_append.mp ordered
  exact ⟨Ordered.all_gt left before, Ordered.all_lt right after⟩

theorem matchFind_eq (cmp : α → Ordering) (t : Tree α) (path : Path α) (leftmost : Bool) :
    matchFind cmp t = (descend cmp t path leftmost).getLeft? := by
  induction t generalizing path leftmost with
  | nil => rfl
  | node c l y r ihl ihr =>
    rw [matchFind, descend]
    cases cmp y with
    | lt => exact ihl ..
    | gt => exact ihr ..
    | eq => rfl

theorem ehRbMatchFind_some {y : α} (h : t.ehRbMatchFind cmp = some y) :
    y ∈ t.nodes ∧ cmp y = .eq := by
  rw [ehRbMatchFind, matchFind_eq cmp t.tree [] true] at h
  exact descend_found (Sum.getLeft?_eq_some_iff.mp h)

theorem ehRbMatchFind_none (ordered : Ordered cmp t.nodes)
    (h : t.ehRbMatchFind cmp = none) : ∀ y ∈ t.nodes, cmp y ≠ .eq := by
  rw [ehRbMatchFind, matchFind_eq cmp t.tree [] true] at h
  cases found : descend cmp t.tree [] true with
  | inl y => simp [found] at h
  | inr place =>
    obtain ⟨path, leftmost⟩ := place
    intro y mem
    have nodes : t.nodes = path.before ++ path.after := by
      have := congrArg Tree.toList (descend_place (.start cmp) found).2
      rw [toList_zip] at this
      exact this.symm
    have place := (descend_place (.start cmp) found).1
    obtain ⟨gt, lt⟩ := ordered_place ordered nodes place.before place.after
    rcases List.mem_append.mp (nodes ▸ mem) with mem | mem
    · simp [gt y mem]
    · simp [lt y mem]

/-- Either a node compares equal and the tree stays, or none does; then the tree stays
if there is no new node, and otherwise takes it between the greater and the less. -/
theorem ehRbFindNewAdd_spec (wf : t.Wf) (ordered : Ordered cmp t.nodes) (newNode : Option α) :
    (∃ y ∈ t.nodes, cmp y = .eq ∧ t.ehRbFindNewAdd cmp newNode = some (t, some y)) ∨
    (∀ y ∈ t.nodes, cmp y ≠ .eq) ∧ match newNode with
      | none => t.ehRbFindNewAdd cmp newNode = some (t, none)
      | some x => ∃ t' before after, t.ehRbFindNewAdd cmp newNode = some (t', some x) ∧
          t'.Wf ∧ t.nodes = before ++ after ∧ t'.nodes = before ++ x :: after ∧
          (∀ y ∈ before, cmp y = .gt) ∧ ∀ y ∈ after, cmp y = .lt := by
  cases found : descend cmp t.tree [] true with
  | inl y =>
    obtain ⟨mem, eq⟩ := descend_found found
    exact .inl ⟨y, mem, eq, by simp [ehRbFindNewAdd, found]⟩
  | inr place =>
    obtain ⟨path, leftmost⟩ := place
    refine .inr ⟨ehRbMatchFind_none ordered ?_, ?_⟩
    · rw [ehRbMatchFind, matchFind_eq cmp t.tree [] true, found]
      rfl
    cases newNode with
    | none => simp [ehRbFindNewAdd, found]
    | some x =>
      obtain ⟨t', run, wf', -, nodes, nodes', before, after⟩ := link_spec wf found x
      obtain ⟨gt, lt⟩ := ordered_place ordered nodes before after
      exact ⟨t', path.before, path.after, by simp [ehRbFindNewAdd, found, run], wf', nodes,
        nodes', gt, lt⟩

end Root

end EventHub.RbTree
