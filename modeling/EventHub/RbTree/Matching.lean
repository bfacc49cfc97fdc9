import EventHub.RbTree.Sequences

/-! `eh_rb_for_entry_each`: the nodes that match a key, from the leftmost one on. The
comparison `c` is `match` with the key. -/

namespace EventHub.RbTree

namespace RbMem

/-- The loop of `eh_rb_find_first`. -/
def findFirst (c : Nat → Int) : Nat → Nat → Nat → RbMem → Option Nat
  | 0, _, _, _ => none
  | fuel + 1, node, matchNode, m =>
    if node = 0 then some matchNode
    else if c node ≤ 0 then
      let matchNode := if c node = 0 then node else matchNode
      findFirst c fuel (m.child .left node) matchNode m
    else findFirst c fuel (m.child .right node) matchNode m

def ehRbNextMatch (c : Nat → Int) (fuel node : Nat) (m : RbMem) : Option Nat :=
  (m.ehRbNext fuel node).map fun node => if node ≠ 0 ∧ c node ≠ 0 then 0 else node

/-- The loop of `eh_rb_for_entry_each` from `pos` on, with the nodes that its body sees. -/
def forEntryEach (c : Nat → Int) (fuel : Nat) (m : RbMem) : Nat → Nat → Option (List Nat)
  | 0, _ => none
  | rounds + 1, pos =>
    if pos = 0 then some []
    else (m.ehRbNextMatch c fuel pos).bind fun next =>
      (forEntryEach c fuel m rounds next).map fun rest => pos :: rest

end RbMem

namespace RbRoot

def ehRbFindFirst (fuel : Nat) (c : Nat → Int) (tree : RbRoot) : Option Nat :=
  tree.findFirst c fuel tree.rbNode 0

def ehRbForEntryEach (fuel : Nat) (c : Nat → Int) (tree : RbRoot) : Option (List Nat) :=
  (tree.ehRbFindFirst fuel c).bind (tree.forEntryEach c fuel fuel)

end RbRoot

/-- Along the list `c` is positive, then zero, then negative. -/
def Falling (c : ℕ → Int) (l : List ℕ) : Prop :=
  l.Pairwise fun a b => (0 < c b → 0 < c a) ∧ (c a < 0 → c b < 0)

section Falling
variable {c : ℕ → Int} {l before after : List ℕ} {x : ℕ}

theorem Falling.split (h : Falling c l) :
    ∃ before after, l = before ++ (l.filter (fun y => c y = 0) ++ after) ∧
      (∀ y ∈ before, 0 < c y) ∧ ∀ y ∈ after, c y < 0 := by
  induction l with
  | nil => exact ⟨[], [], by simp⟩
  | cons a l ih =>
    obtain ⟨first, rest⟩ := List.pairwise_cons.mp h
    obtain ⟨before, after, eq, greater, less⟩ := ih rest
    rcases lt_trichotomy (c a) 0 with lt | zero | gt
    · have all : ∀ y ∈ l, c y < 0 := fun y mem => (first y mem).2 lt
      have none : l.filter (fun y => c y = 0) = [] :=
        List.filter_eq_nil_iff.mpr fun y mem => by simpa using (all y mem).ne
      refine ⟨[], a :: l, ?_, by simp, ?_⟩
      · simp [none, lt.ne]
      · exact List.forall_mem_cons.mpr ⟨lt, all⟩
    · have empty : before = [] := List.eq_nil_iff_forall_not_mem.mpr fun y mem => by
        have := (first y (eq ▸ List.mem_append_left _ mem)).1 (greater y mem)
        omega
      refine ⟨[], after, ?_, by simp, less⟩
      rw [empty, List.nil_append] at eq
      rw [List.filter_cons_of_pos (by simpa using zero), List.nil_append, List.cons_append, ← eq]
    · refine ⟨a :: before, after, ?_, List.forall_mem_cons.mpr ⟨gt, greater⟩, less⟩
      rw [List.filter_cons_of_neg (by simpa using gt.ne'), List.cons_append, ← eq]

theorem Consistent.falling {cmp : ℕ → ℕ → Int} {linked : List ℕ}
    (h : Consistent cmp linked c) (nodes : l.Perm linked)
    (sorted : l.Pairwise (Before cmp linked)) : Falling c l :=
  sorted.imp_of_mem fun {a b} memA memB before =>
    h a (nodes.mem_iff.mp memA) b (nodes.mem_iff.mp memB) before.le

end Falling

section Memory
variable {m : RbMem} {c : ℕ → Int} {t : Tree Nat} {parent best fuel x : ℕ}
  {before matched after : List ℕ}

/-- The descent finds the first match in order: below a match it goes on to the left. -/
theorem findFirst_run (h : t.In m parent) (falling : Falling c t.toList)
    (enough : t.toList.length < fuel) (best : ℕ) :
    m.findFirst c fuel t.ptr best = some ((t.toList.find? fun y => c y = 0).getD best) := by
  obtain ⟨fuel, rfl⟩ := Nat.exists_eq_succ_of_ne_zero (Nat.ne_of_gt (Nat.zero_lt_of_lt enough))
  induction t generalizing parent best fuel with
  | nil => rfl
  | node color l y r ihl ihr =>
    obtain ⟨⟨pos, node⟩, left, right⟩ := h
    obtain ⟨fallingL, rest, cross⟩ := List.pairwise_append.mp falling
    obtain ⟨first, fallingR⟩ := List.pairwise_cons.mp rest
    simp only [Tree.toList, List.length_append, List.length_cons] at enough
    obtain ⟨rounds, rfl⟩ : ∃ rounds, fuel = rounds + 1 :=
      Nat.exists_eq_succ_of_ne_zero (by omega)
    rw [RbMem.findFirst, Tree.ptr, if_neg pos]
    simp only [RbMem.child, node, Tree.toList, List.find?_append, List.find?_cons]
    rcases lt_trichotomy (c y) 0 with lt | zero | gt
    · have none : r.toList.find? (fun y => c y = 0) = none :=
        List.find?_eq_none.mpr fun z mem => by simpa using ((first z mem).2 lt).ne
      rw [if_pos lt.le, if_neg lt.ne]
      refine (ihl left fallingL best rounds (by omega)).trans ?_
      simp [lt.ne, none]
    · rw [if_pos zero.le, if_pos zero]
      refine (ihl left fallingL y rounds (by omega)).trans ?_
      simp only [zero, decide_true]
      cases l.toList.find? fun y => c y = 0 <;> rfl
    · have none : l.toList.find? (fun y => c y = 0) = none :=
        List.find?_eq_none.mpr fun z mem => by
          simpa using ((cross z mem y (List.mem_cons_self ..)).1 gt).ne'
      rw [if_neg (by omega)]
      refine (ihr right fallingR best rounds (by omega)).trans ?_
      simp [gt.ne', none]

theorem ehRbNext_after (h : Represents m t) (place : t.toList = before ++ x :: after)
    (enough : t.toList.length < fuel) : m.ehRbNext fuel x = some (after.head?.getD 0) := by
  have mem : x ∈ t.toList := place ▸ List.mem_append_right before (List.mem_cons_self ..)
  obtain ⟨n, found⟩ := locate_of_mem mem []
  obtain ⟨rfl, whole⟩ := locate_spec found
  change zip n.tree n.path = t at whole
  have nodup : t.toList.Nodup := h.foot_nodup (i := 0) rfl
  have around : before ++ n.val :: after =
      (n.path.before ++ n.left.toList) ++ n.val :: (n.right.toList ++ n.path.after) := by
    have list := congrArg Tree.toList whole
    rw [toList_zip, place] at list
    simpa [Cursor.tree, Tree.toList] using list.symm
  rw [place_unique (place ▸ nodup) around, ← Cursor.ehRbNext_eq]
  exact ehRbNext_run (whole ▸ h) (whole ▸ enough)

theorem forEntryEach_run (h : Represents m t)
    (place : t.toList = before ++ (matched ++ after)) (hit : ∀ y ∈ matched, c y = 0)
    (miss : ∀ y ∈ after, c y ≠ 0) (enough : t.toList.length < fuel) {rounds : ℕ}
    (left : matched.length < rounds) :
    m.forEntryEach c fuel rounds (matched.head?.getD 0) = some matched := by
  obtain ⟨rounds, rfl⟩ := Nat.exists_eq_succ_of_ne_zero (Nat.ne_of_gt (Nat.zero_lt_of_lt left))
  induction matched generalizing before rounds with
  | nil => rfl
  | cons y matched ih =>
    have pos : ∀ z ∈ t.toList, z ≠ 0 := fun z mem =>
      h.ne 0 1 rfl rfl (by decide) mem (List.mem_cons_self ..)
    have next : m.ehRbNext fuel y = some ((matched ++ after).head?.getD 0) :=
      ehRbNext_after h place enough
    obtain ⟨rounds, rfl⟩ : ∃ k, rounds = k + 1 :=
      Nat.exists_eq_succ_of_ne_zero (by simp at left; omega)
    have further : (if (matched ++ after).head?.getD 0 ≠ 0 ∧ c ((matched ++ after).head?.getD 0) ≠ 0
        then 0 else (matched ++ after).head?.getD 0) = matched.head?.getD 0 := by
      cases matched with
      | nil =>
        cases after with
        | nil => rfl
        | cons z after => exact if_pos ⟨pos z (by simp [place]), miss z (List.mem_cons_self ..)⟩
      | cons z matched => exact if_neg fun both => both.2 (hit z (by simp))
    rw [RbMem.forEntryEach, if_neg (show (y :: matched).head?.getD 0 ≠ 0 from
      pos y (by simp [place]))]
    change ((m.ehRbNext fuel y).map _).bind _ = _
    rw [next, Option.map_some, further, Option.bind_some]
    have rest := ih (show t.toList = (before ++ [y]) ++ (matched ++ after) by simp [place])
      (fun z mem => hit z (List.mem_cons_of_mem _ mem)) rounds (by simpa using left)
    rw [rest]
    rfl

end Memory

/-- In every tree that the operations build, a loop over the matches of a key sees exactly the
nodes that match, each once and in order, and ends; a match function that goes along with `cmp`
is positive, then zero, then negative in order. -/
theorem ehRbForEntryEach_runs {tree : RbRoot} {linked : List ℕ} (run : Runs tree linked) :
    (∃ t, Holds tree linked t) ∧
    ∀ t, Holds tree linked t →
      (∀ c fuel, Falling c t.toList → linked.length < fuel →
        ∃ visited, tree.ehRbForEntryEach fuel c = some visited ∧
          visited.Nodup ∧ visited.Sublist t.toList ∧
          ∀ y, y ∈ visited ↔ y ∈ linked ∧ c y = 0) ∧
      ∀ c, Consistent tree.cmp linked c → Falling c t.toList := by
  refine ⟨run.holds.1, fun t holds => ⟨fun c fuel falling enough => ?_, fun c consistent =>
    consistent.falling holds.nodes holds.ordered⟩⟩
  have enough : t.toList.length < fuel := holds.nodes.length_eq ▸ enough
  have sub : (t.toList.filter fun y => c y = 0).Sublist t.toList := List.filter_sublist
  have root : tree.rbNode = t.ptr := (holds.represents.get 1 rfl).2
  obtain ⟨before, after, place, -, less⟩ := falling.split
  refine ⟨t.toList.filter fun y => c y = 0, ?_, ?_, sub, fun y => ?_⟩
  · rw [RbRoot.ehRbForEntryEach, RbRoot.ehRbFindFirst, root,
      findFirst_run (holds.represents.get 0 rfl) falling enough 0, Option.bind_some,
      ← List.head?_filter]
    exact forEntryEach_run holds.represents place (fun y mem => by simpa using
      (List.mem_filter.mp mem).2) (fun y mem => (less y mem).ne) enough
      (sub.length_le.trans_lt enough)
  · exact (holds.nodes.nodup_iff.mpr holds.nodup).sublist sub
  · rw [List.mem_filter, holds.nodes.mem_iff, decide_eq_true_iff]

theorem ehRbForEntryEach_runs_equal : ∃ tree linked, Runs tree linked ∧ linked = [6, 9, 5] ∧
    ∃ visited, tree.ehRbForEntryEach 4 (fun y => 1 - (y / 4 : ℕ)) = some visited ∧
      ∀ y, y ∈ visited ↔ y ∈ linked ∧ (1 : Int) - (y / 4 : ℕ) = 0 := by
  have order : TotalPreorder fun a b => (((a / 4 : ℕ) : Int) - (b / 4 : ℕ)) :=
    ⟨fun a b => by omega, fun a b c => by omega⟩
  have start := Runs.init (fun _ => ⟨0, 0, 0⟩) order
  have one : Runs _ [6] := start.step (show Allowed _ _ (.add 6) from ⟨by decide, by decide⟩)
    (by decide : 0 < 1) rfl
  have two : Runs _ [6, 9] := one.step (show Allowed _ _ (.add 9) from ⟨by decide, by decide⟩)
    (by decide : 1 < 2) rfl
  have run : Runs _ [6, 9, 5] := two.step
    (show Allowed _ _ (.add 5) from ⟨by decide, by decide⟩) (by decide : 2 < 3) rfl
  obtain ⟨⟨t, holds⟩, loops⟩ := ehRbForEntryEach_runs run
  obtain ⟨each, falls⟩ := loops t holds
  obtain ⟨visited, loop, -, -, all⟩ := each (fun y => 1 - (y / 4 : ℕ)) 4
    (falls _ fun a _ b _ le => by
      change ((a / 4 : ℕ) : Int) - (b / 4 : ℕ) ≤ 0 at le
      omega) (by decide)
  exact ⟨_, _, run, rfl, visited, loop, all⟩

end EventHub.RbTree
