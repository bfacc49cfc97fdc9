import EventHub.RbTree.Removing

/-! The postorder traversal of `eh_rbtree.c`. A node is read with `load`, which fails where its
memory is gone: what comes next can be found as long as the nodes to come are there. -/

namespace EventHub.RbTree

section Code
variable (load : Nat → Option RbNode)

def rbLeftDeepestNode : Nat → Nat → Option Nat
  | 0, _ => none
  | fuel + 1, node => (load node).bind fun n =>
    if n.rbLeft ≠ 0 then rbLeftDeepestNode fuel n.rbLeft
    else if n.rbRight ≠ 0 then rbLeftDeepestNode fuel n.rbRight
    else some node

def rbNextPostorder (fuel node : Nat) : Option Nat :=
  if node = 0 then some 0
  else (load node).bind fun n =>
    let parent := pcParent n.parentAndColor
    if parent = 0 then some 0
    else (load parent).bind fun p =>
      if node = p.rbLeft ∧ p.rbRight ≠ 0 then rbLeftDeepestNode load fuel p.rbRight
      else some parent

/-- `rb_first_postorder` of the root `rb_node`. -/
def rbFirstPostorder (fuel rbNode : Nat) : Option Nat :=
  if rbNode = 0 then some 0 else rbLeftDeepestNode load fuel rbNode

end Code

/-- The nodes in the order of `eh_rb_postorder_for_each_entry_safe`. -/
def Tree.postorder {α : Type} : Tree α → List α
  | .nil => []
  | .node _ l x r => l.postorder ++ (r.postorder ++ [x])

namespace Path
variable {α : Type}

def behind : Path α → List α
  | [] => []
  | ⟨.left, _, _, _⟩ :: up => behind up
  | ⟨.right, _, _, l⟩ :: up => behind up ++ l.postorder

def ahead : Path α → List α
  | [] => []
  | ⟨.left, _, x, r⟩ :: up => r.postorder ++ x :: ahead up
  | ⟨.right, _, x, _⟩ :: up => x :: ahead up

end Path

section Order
variable {α : Type}

theorem Tree.postorder_perm (t : Tree α) : t.postorder.Perm t.toList := by
  induction t with
  | nil => exact .refl _
  | node c l x r ihl ihr =>
    rw [Tree.postorder, Tree.toList]
    exact ihl.append ((List.perm_append_singleton x r.postorder).trans (ihr.cons x))

theorem postorder_zip (t : Tree α) (p : Path α) :
    (zip t p).postorder = p.behind ++ (t.postorder ++ p.ahead) := by
  induction p generalizing t with
  | nil => simp [zip, Path.behind, Path.ahead]
  | cons f up ih =>
    obtain ⟨dir, color, x, sibling⟩ := f
    rw [zip, ih]
    cases dir <;> simp [Dir.join, Dir.pick, Tree.postorder, Path.behind, Path.ahead]

end Order

variable {m : RbMem} {load : ℕ → Option RbNode} {t : Tree ℕ} {path : Path ℕ}
  {fuel parent x : ℕ} {passed todo : List ℕ}

theorem rbLeftDeepestNode_run (h : t.In m parent) (pos : t.ptr ≠ 0)
    (there : ∀ a ∈ t.postorder, load a = some (m.node a)) (enough : t.toList.length ≤ fuel) :
    rbLeftDeepestNode load fuel t.ptr = some (t.postorder.head?.getD 0) := by
  induction t generalizing parent fuel with
  | nil => exact absurd rfl pos
  | node c l x r ihl ihr =>
    obtain ⟨⟨-, node⟩, left, right⟩ := h
    simp only [Tree.postorder, List.mem_append, List.mem_singleton] at there
    simp only [Tree.toList, List.length_append, List.length_cons] at enough
    obtain ⟨fuel, rfl⟩ : ∃ n, fuel = n + 1 := Nat.exists_eq_succ_of_ne_zero (by omega)
    rw [rbLeftDeepestNode, Tree.ptr, there x (.inr (.inr rfl)), node, Option.bind_some,
      Tree.postorder]
    have first : ∀ {s : Tree ℕ} (rest : List ℕ), s.ptr ≠ 0 →
        (s.postorder ++ rest).head? = s.postorder.head? := by
      intro s rest some
      cases s with
      | nil => exact absurd rfl some
      | node k l' y r' =>
        refine List.head?_append_of_ne_nil _ ?_
        simp [Tree.postorder]
    by_cases posL : l.ptr ≠ 0
    · rw [if_pos posL, first _ posL]
      exact ihl left posL (fun a mem => there a (.inl mem)) (by omega)
    have emptyL : l = .nil := by
      cases l with
      | nil => rfl
      | node k l' y r' => exact absurd left.1.1 posL
    subst emptyL
    rw [if_neg posL]
    by_cases posR : r.ptr ≠ 0
    · rw [if_pos posR, Tree.postorder, List.nil_append, first _ posR]
      exact ihr right posR (fun a mem => there a (.inr (.inl mem))) (by omega)
    have emptyR : r = .nil := by
      cases r with
      | nil => rfl
      | node k l' y r' => exact absurd right.1.1 posR
    subst emptyR
    rw [if_neg posR]
    rfl

theorem rbNextPostorder_run (h : Sep m [.tree t (path.ptr 0), .up path t.ptr]) (pos : t.ptr ≠ 0)
    (there : ∀ a ∈ t.ptr :: path.ahead, load a = some (m.node a))
    (enough : path.nodes.length ≤ fuel) :
    rbNextPostorder load fuel t.ptr = some (path.ahead.head?.getD 0) := by
  have up : pcParent (m.node t.ptr).parentAndColor = path.ptr 0 := (h.get 0 rfl).rbParent pos
  rw [rbNextPostorder, if_neg pos, there t.ptr (List.mem_cons_self ..), Option.bind_some]
  simp only [up]
  cases path with
  | nil => rfl
  | cons f up =>
    have parts := Sep.cons_iff.mp (h.pick [1, 0] (by decide))
    have room : f.sibling.toList.length ≤ fuel := by
      simp only [Path.nodes, List.cons_append, List.length_cons, List.length_append] at enough
      omega
    obtain ⟨d, color, y, s⟩ := f
    have posY : y ≠ 0 := parts.pos 0 rfl
    have node := parts.node 0 rfl
    rw [Path.ptr, if_neg posY]
    cases d with
    | left =>
      simp only [Path.ahead, List.mem_cons, List.mem_append] at there
      rw [there y (.inr (.inr (.inl rfl))), node, Option.bind_some, Path.ahead]
      change (if t.ptr = t.ptr ∧ s.ptr ≠ 0 then _ else _) = _
      cases s with
      | nil => exact if_neg fun both => both.2 rfl
      | node k l z r =>
        have posZ : (Tree.node k l z r).ptr ≠ 0 := (parts.get 1 rfl).1.1
        rw [if_pos ⟨rfl, posZ⟩, List.head?_append_of_ne_nil _ (by simp [Tree.postorder])]
        exact rbLeftDeepestNode_run (parts.get 1 rfl) posZ
          (fun a mem => there a (.inr (.inl mem))) room
    | right =>
      have other : t.ptr ≠ s.ptr := by
        cases t with
        | nil => exact absurd rfl pos
        | node k l z r =>
          have opened := (Sep.node_iff .left).mp (parts.pick [3, 1] (by decide))
          exact (opened.ptr_ne 0 3 rfl rfl).symm
      simp only [Path.ahead, List.mem_cons] at there
      rw [there y (.inr (.inl rfl)), node, Option.bind_some, Path.ahead]
      exact if_neg fun both => other both.1

theorem postorder_place (h : Represents m t) (place : t.postorder = passed ++ x :: todo) :
    ∃ n : Cursor ℕ, n.val = x ∧ zip n.tree n.path = t ∧ n.path.ahead = todo := by
  have mem : x ∈ t.postorder := place ▸ List.mem_append_right passed (List.mem_cons_self ..)
  obtain ⟨n, found⟩ := locate_of_mem (t.postorder_perm.mem_iff.mp mem) []
  obtain ⟨rfl, whole⟩ := locate_spec found
  change zip n.tree n.path = t at whole
  have around : t.postorder = (n.path.behind ++ (n.left.postorder ++ n.right.postorder)) ++
      n.val :: n.path.ahead := by
    rw [← whole, postorder_zip]
    simp [Cursor.tree, Tree.postorder]
  have nodup : t.postorder.Nodup := t.postorder_perm.nodup_iff.mpr (h.foot_nodup (i := 0) rfl)
  exact ⟨n, rfl, whole, place_unique (around ▸ nodup) (around.symm.trans place)⟩

theorem rbNextPostorder_after (h : Represents m t) (place : t.postorder = passed ++ x :: todo)
    (there : ∀ a ∈ x :: todo, load a = some (m.node a)) (enough : t.toList.length ≤ fuel) :
    rbNextPostorder load fuel x = some (todo.head?.getD 0) := by
  obtain ⟨n, rfl, rfl, rfl⟩ := postorder_place h place
  have parts := (Sep.zip_iff n.tree n.path).mpr h
  have size := (zip_nodes n.tree n.path).length_eq
  rw [List.length_append] at size
  exact rbNextPostorder_run parts (parts.get 0 rfl).1.1 there (by omega)

theorem parent_ahead (h : Represents m t) (mem : x ∈ t.toList) (some : m.rbParent x ≠ 0) :
    [x, m.rbParent x].Sublist t.postorder := by
  obtain ⟨passed, todo, place⟩ := List.append_of_mem (t.postorder_perm.mem_iff.mpr mem)
  obtain ⟨n, rfl, rfl, rfl⟩ := postorder_place h place
  have parts := (Sep.zip_iff n.tree n.path).mpr h
  have parent : m.rbParent n.val = n.path.ptr 0 := (parts.get 0 rfl).rbParent (parts.get 0 rfl).1.1
  rw [parent] at some ⊢
  have above : n.path.ptr 0 ∈ n.path.ahead := by
    cases path : n.path with
    | nil => exact absurd (congrArg (Path.ptr 0) path) some
    | cons f up =>
      obtain ⟨d, color, y, s⟩ := f
      cases d <;> simp [Path.ptr, Path.ahead]
  rw [place]
  exact ((List.singleton_sublist.mpr above).cons_cons n.val).trans (List.sublist_append_right ..)

end EventHub.RbTree
