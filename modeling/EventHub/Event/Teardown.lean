import EventHub.Library.Rings
import EventHub.RbTree.Postorder
import EventHub.RbTree.Sequences

/-! `eh_epoll_del_advanced` on the memory: the tree of an epoll is walked while its nodes are
freed, in events that other epolls and tasks use too. A step that would touch freed memory
fails. -/

namespace EventHub.Event
open Library RbTree

/-- `receptor_list_head` of an event; `list_node` of an epoll's receptor, known by the address of
its `rb_node`, or of another receptor. -/
inductive ListNode (E R : Type) where
  | head (e : E)
  | entry (x : Nat)
  | other (r : R)
deriving DecidableEq

/-- The receptors of all epolls and the root of one of them; `passed` are the ones that its
deletion has given to `eh_free`, whose memory may belong to others since. -/
structure EpollMem (E R : Type) where
  rb : RbMem
  links : Links (ListNode E R)
  freed : Nat → Bool
  epollFreed : Bool
  passed : List Nat

def ListNode.among {E R : Type} (xs : List Nat) : ListNode E R → Bool
  | .entry x => x ∈ xs
  | .head _ | .other _ => false

namespace EpollMem
variable {E R : Type} [DecidableEq E] [DecidableEq R]

def load (m : EpollMem E R) (x : Nat) : Option RbNode :=
  if m.freed x ∨ x ∈ m.passed then none else some (m.rb.node x)

def live (m : EpollMem E R) : ListNode E R → Bool
  | .entry x => !m.freed x
  | .head _ | .other _ => true

/-- `eh_event_remove_receptor_no_lock`: the receptor is read, its neighbours are written. -/
def removeReceptor (m : EpollMem E R) (x : Nat) : Option (EpollMem E R) :=
  if m.freed x ∨ x ∈ m.passed then none
  else if m.live (m.links.next (.entry x)) ∧ m.live (m.links.prev (.entry x)) then
    some { m with links := m.links.delInit (.entry x) }
  else none

/-- `eh_free`. -/
def free (m : EpollMem E R) (x : Nat) : Option (EpollMem E R) :=
  if m.freed x then none
  else some { m with freed := Function.update m.freed x true, passed := m.passed ++ [x] }

/-- `if(free_func) free_func(pos)`. -/
def call (freeFunc : Option (Nat → EpollMem E R → EpollMem E R)) (pos : Nat)
    (m : EpollMem E R) : EpollMem E R :=
  match freeFunc with
  | none => m
  | some f => f pos m

/-- The loop of `eh_epoll_del_advanced` from `pos` on. -/
def delLoop (fuel : Nat) (freeFunc : Option (Nat → EpollMem E R → EpollMem E R)) :
    Nat → Nat → EpollMem E R → Option (EpollMem E R)
  | 0, _, _ => none
  | rounds + 1, pos, m =>
    if pos = 0 then some m
    else do
      let n ← rbNextPostorder m.load fuel pos
      let m := call freeFunc pos m
      let m ← m.removeReceptor pos
      let m ← m.free pos
      delLoop fuel freeFunc rounds n m

def ehEpollDelAdvanced (fuel : Nat) (freeFunc : Option (Nat → EpollMem E R → EpollMem E R))
    (m : EpollMem E R) : Option (EpollMem E R) := do
  guard !m.epollFreed
  let pos ← rbFirstPostorder m.load fuel m.rb.rbNode
  let m ← m.delLoop fuel freeFunc fuel pos
  guard !m.epollFreed
  pure { m with epollFreed := true }

/-- The receptor lists: every event is the head of a ring of receptors that are there, and a
receptor of the tree that is left is linked to itself where it is in no list. -/
structure ReceptorLists (t : RbTree.Tree Nat) (m : EpollMem E R) (f : E → List (ListNode E R)) :
    Prop where
  rings : Rings m.links fun e => .head e :: f e
  live : ∀ {e x}, .entry x ∈ f e → m.freed x = false
  alone : ∀ x ∈ t.toList, x ∉ m.passed → (∀ e, .entry x ∉ f e) →
    m.links.next (.entry x) = .entry x ∧ m.links.prev (.entry x) = .entry x

/-- What `free_func` may do: anything but to the epoll and the nodes of its tree that are left. It
may use the receptor lists as everybody does. -/
structure Untouched (t : RbTree.Tree Nat) (m m' : EpollMem E R) : Prop where
  root : m'.rb.rbNode = m.rb.rbNode
  node : ∀ x ∈ t.toList, x ∉ m.passed → m'.rb.node x = m.rb.node x ∧ m'.freed x = m.freed x
  epollFreed : m'.epollFreed = m.epollFreed
  passed : m'.passed = m.passed
  lists : ∃ f', ReceptorLists t m' f'

/-- A `free_func` that leaves the tree alone, whenever it is called. -/
def Harmless (t : RbTree.Tree Nat) (freeFunc : Option (Nat → EpollMem E R → EpollMem E R)) : Prop :=
  ∀ g ∈ freeFunc, ∀ x ∈ t.toList, ∀ m f, ReceptorLists t m f → Untouched t m (g x m)

/-- A `free_func` that allocates no receptor in freed memory. -/
def AllocatesNothing (freeFunc : Option (Nat → EpollMem E R → EpollMem E R)) : Prop :=
  ∀ g ∈ freeFunc, ∀ x m y, m.freed y = true → (g x m).freed y = true

/-- The loop has `todo` before it. -/
structure Deleting (t : RbTree.Tree Nat) (start : EpollMem E R) (old : E → List (ListNode E R))
    (freeFunc : Option (Nat → EpollMem E R → EpollMem E R)) (m : EpollMem E R) (todo : List Nat)
    (f : E → List (ListNode E R)) : Prop where
  order : t.postorder = m.passed ++ todo
  node : ∀ x ∈ todo, m.rb.node x = start.rb.node x
  live : ∀ x ∈ todo, m.freed x = false
  epollFreed : m.epollFreed = false
  lists : ReceptorLists t m f
  freed : AllocatesNothing freeFunc → ∀ x ∈ m.passed, m.freed x = true
  same : freeFunc = none → ∀ e, f e = (old e).filter fun a => !a.among m.passed

variable {t : RbTree.Tree Nat} {m m' : EpollMem E R} {f : E → List (ListNode E R)} {x : Nat}
  {e : E}

namespace ReceptorLists

theorem without (h : ReceptorLists t m f) {before after : List (ListNode E R)} {a : ListNode E R}
    (split : f e = before ++ a :: after) :
    (fun i => (ListNode.head i : ListNode E R) :: (f i).filter (· ≠ a)) =
      Function.update (fun i => .head i :: f i) e (.head e :: (before ++ after)) := by
  funext i
  by_cases eq : i = e
  · subst eq
    have nodup := (List.nodup_cons.mp (h.rings.ring i).nodup).2
    rw [split] at nodup
    have out := (List.nodup_cons.mp (List.nodup_middle.mp nodup)).1
    have kept : (before ++ after).filter (· ≠ a) = before ++ after :=
      List.filter_eq_self.mpr fun b mem => by
        simpa using fun eq : b = a => out (eq ▸ mem)
    rw [Function.update_self, split, ← kept]
    simp
  · have kept : (f i).filter (· ≠ a) = f i := List.filter_eq_self.mpr fun b mem => by
      have inE : a ∈ ListNode.head e :: f e := by simp [split]
      simpa using fun same : b = a =>
        eq (h.rings.disjoint (List.mem_cons_of_mem _ (same ▸ mem)) inE)
    rw [Function.update_of_ne eq, kept]

omit [DecidableEq E] [DecidableEq R] in
theorem live_of_mem (h : ReceptorLists t m f) {a : ListNode E R} (mem : a ∈ ListNode.head e :: f e) :
    m.live a = true := by
  cases a with
  | head e => rfl
  | entry x =>
    have inList : .entry x ∈ f e := by simpa using mem
    simp [EpollMem.live, h.live inList]
  | other r => rfl

theorem removeReceptor (h : ReceptorLists t m f) (mem : x ∈ t.toList) (left : x ∉ m.passed)
    (there : m.freed x = false) :
    ∃ m', m.removeReceptor x = some m' ∧ m' = { m with links := m'.links } ∧
      ReceptorLists t m' fun e => (f e).filter (· ≠ .entry x) := by
  rw [EpollMem.removeReceptor, if_neg (by simp [there, left])]
  by_cases linked : ∃ e, .entry x ∈ f e
  · obtain ⟨e, inE⟩ := linked
    obtain ⟨before, after, split⟩ := List.append_of_mem inE
    have at_e : ListNode.head e :: f e = (.head e :: before) ++ .entry x :: after := by
      rw [split, List.cons_append]
    have turned : m.links.Ring (.entry x :: (after ++ .head e :: before)) := by
      have ring := h.rings.ring e
      rw [at_e] at ring
      simpa using ring.rotate
    have inRing : ∀ a ∈ ListNode.entry x :: (after ++ .head e :: before),
        a ∈ ListNode.head e :: f e := by
      intro a mem
      rw [at_e]
      simp only [List.mem_cons, List.mem_append] at mem ⊢
      tauto
    have next := h.live_of_mem (inRing _ turned.next_mem)
    have prev := h.live_of_mem (inRing _ turned.prev_mem)
    refine ⟨_, if_pos ⟨next, prev⟩, rfl, ?_, ?_, ?_⟩
    · rw [h.without split]
      exact (h.rings.unlink at_e).alone (h.rings.unlink_out at_e)
    · intro e y mem
      exact h.live (List.mem_filter.mp mem).1
    · intro y memY leftY outY
      by_cases eq : y = x
      · subst eq
        exact Links.delInit_next_self _ _
      · have out : ∀ e, .entry y ∉ f e := fun e mem =>
          outY e (List.mem_filter.mpr ⟨mem, by simpa using eq⟩)
        have outRing : ListNode.entry y ∉ ListNode.head e :: f e := by
          simpa using out e
        obtain ⟨next, prev⟩ := (h.rings.ring e).delInit_agree
          (List.mem_cons_of_mem _ inE) (.entry y) outRing
        rw [next, prev]
        exact h.alone y memY leftY out
  · have out : ∀ e, .entry x ∉ f e := fun e mem => linked ⟨e, mem⟩
    obtain ⟨next, prev⟩ := h.alone x mem left out
    have self : m.live (.entry x) = true := by simp [EpollMem.live, there]
    have same : (fun e => (f e).filter (· ≠ .entry x)) = f := by
      funext e
      exact List.filter_eq_self.mpr fun a mem => by
        simpa using fun eq : a = .entry x => out e (eq ▸ mem)
    rw [next, prev, if_pos ⟨self, self⟩, Links.delInit_self next prev, same]
    exact ⟨m, rfl, rfl, h⟩

omit [DecidableEq E] [DecidableEq R] in
theorem free (h : ReceptorLists t m f) (out : ∀ e, .entry x ∉ f e) (there : m.freed x = false) :
    ∃ m', m.free x = some m' ∧
      m' = { m with freed := Function.update m.freed x true, passed := m.passed ++ [x] } ∧
      ReceptorLists t m' f := by
  refine ⟨_, by rw [EpollMem.free, if_neg (by simp [there])], rfl, h.rings, ?_, ?_⟩
  · intro e y mem
    have ne : y ≠ x := fun eq => out e (eq ▸ mem)
    exact (Function.update_of_ne ne ..).trans (h.live mem)
  · intro y memY leftY outY
    exact h.alone y memY (fun mem => leftY (List.mem_append_left _ mem)) outY

end ReceptorLists

section Loop
variable {start : EpollMem E R} {old : E → List (ListNode E R)} {todo : List Nat} {fuel : Nat}
  {freeFunc : Option (Nat → EpollMem E R → EpollMem E R)}

namespace Deleting

omit [DecidableEq E] [DecidableEq R] in
theorem fresh (h : Deleting t start old freeFunc m todo f) (tree : Represents start.rb t) :
    (m.passed ++ todo).Nodup := by
  rw [← h.order]
  exact t.postorder_perm.nodup_iff.mpr (tree.foot_nodup (i := 0) rfl)

omit [DecidableEq E] [DecidableEq R] in
theorem load (h : Deleting t start old freeFunc m todo f) (tree : Represents start.rb t) :
    ∀ x ∈ todo, m.load x = some (start.rb.node x) := by
  intro x mem
  have out : x ∉ m.passed := fun mem' =>
    (List.nodup_append.mp (h.fresh tree)).2.2 x mem' x mem rfl
  rw [EpollMem.load, if_neg (by simp [h.live x mem, out]), h.node x mem]

omit [DecidableEq E] [DecidableEq R] in
theorem call (h : Deleting t start old freeFunc m (x :: todo) f) (tree : Represents start.rb t)
    (harmless : Harmless t freeFunc) :
    ∃ f', Deleting t start old freeFunc (call freeFunc x m) (x :: todo) f' := by
  cases freeFunc with
  | none => exact ⟨f, h⟩
  | some g =>
    have inTree : ∀ y ∈ x :: todo, y ∈ t.toList ∧ y ∉ m.passed := fun y mem =>
      ⟨t.postorder_perm.mem_iff.mp (h.order ▸ List.mem_append_right _ mem), fun mem' =>
        (List.nodup_append.mp (h.fresh tree)).2.2 y mem' y mem rfl⟩
    have first := (inTree x (List.mem_cons_self ..)).1
    have untouched := harmless g rfl x first m f h.lists
    obtain ⟨f', lists'⟩ := untouched.lists
    refine ⟨f', ?_, fun y mem => ?_, fun y mem => ?_, ?_, lists', fun nothing y mem => ?_, nofun⟩
    · exact untouched.passed ▸ h.order
    · exact (untouched.node y (inTree y mem).1 (inTree y mem).2).1.trans (h.node y mem)
    · exact (untouched.node y (inTree y mem).1 (inTree y mem).2).2.trans (h.live y mem)
    · exact untouched.epollFreed.trans h.epollFreed
    · exact nothing g rfl x m y (h.freed nothing y (untouched.passed ▸ mem))

theorem step (h : Deleting t start old freeFunc m (x :: todo) f) (tree : Represents start.rb t) :
    ∃ unlinked m' f', m.removeReceptor x = some unlinked ∧ unlinked.free x = some m' ∧
      Deleting t start old freeFunc m' todo f' := by
  have nodup := h.fresh tree
  obtain ⟨-, rest, apart⟩ := List.nodup_append.mp nodup
  have mem : x ∈ t.toList := t.postorder_perm.mem_iff.mp (h.order ▸ by simp)
  have out : x ∉ m.passed := fun mem => apart x mem x (List.mem_cons_self ..) rfl
  have there := h.live x (List.mem_cons_self ..)
  obtain ⟨unlinked, remove, links, lists'⟩ := h.lists.removeReceptor mem out there
  obtain ⟨m', free, eq, lists'⟩ := lists'.free (fun e mem => by simp at mem)
    ((congrArg (fun m => m.freed x) links).trans there)
  have others : ∀ y ∈ todo, y ≠ x := fun y mem eq => (List.nodup_cons.mp rest).1 (eq ▸ mem)
  have passed : m'.passed = m.passed ++ [x] := by rw [eq, links]
  have freed : m'.freed = Function.update m.freed x true := by rw [eq, links]
  refine ⟨unlinked, m', _, remove, free, ?_, fun y mem => ?_, fun y mem => ?_, ?_, lists',
    fun nothing y mem => ?_, fun null e => ?_⟩
  · rw [passed, h.order]
    simp
  · rw [eq, links]
    exact h.node y (List.mem_cons_of_mem x mem)
  · rw [freed, Function.update_of_ne (others y mem)]
    exact h.live y (List.mem_cons_of_mem x mem)
  · rw [eq, links]
    exact h.epollFreed
  · rw [freed]
    rw [passed] at mem
    rcases List.mem_append.mp mem with mem | mem
    · by_cases same : y = x
      · rw [same, Function.update_self]
      · rw [Function.update_of_ne same]
        exact h.freed nothing y mem
    · rw [List.mem_singleton.mp mem, Function.update_self]
  · rw [passed, h.same null e, List.filter_filter]
    refine List.filter_congr fun a _ => ?_
    cases a <;> simp [ListNode.among, Bool.and_comm]

end Deleting

theorem delLoop_run (h : Deleting t start old freeFunc m todo f)
    (tree : Represents start.rb t) (harmless : Harmless t freeFunc)
    (enough : t.toList.length ≤ fuel) {rounds : Nat} (left : todo.length < rounds) :
    ∃ m' f', m.delLoop fuel freeFunc rounds (todo.head?.getD 0) = some m' ∧
      Deleting t start old freeFunc m' [] f' := by
  obtain ⟨rounds, rfl⟩ := Nat.exists_eq_succ_of_ne_zero (Nat.ne_of_gt (Nat.zero_lt_of_lt left))
  induction todo generalizing m f rounds with
  | nil => exact ⟨m, f, rfl, h⟩
  | cons x todo ih =>
    obtain ⟨rounds, rfl⟩ : ∃ n, rounds = n + 1 :=
      Nat.exists_eq_succ_of_ne_zero (by simp at left; omega)
    have mem : x ∈ t.toList := t.postorder_perm.mem_iff.mp (h.order ▸ by simp)
    have pos : x ≠ 0 := tree.ne 0 1 rfl rfl (by decide) mem (List.mem_cons_self ..)
    have next := rbNextPostorder_after tree h.order (h.load tree) enough
    obtain ⟨f₁, called⟩ := h.call tree harmless
    obtain ⟨unlinked, m₂, f₂, remove, free, deleting⟩ := called.step tree
    obtain ⟨m', f', rest, done⟩ := ih deleting rounds (by simpa using left)
    refine ⟨m', f', ?_, done⟩
    rw [delLoop, if_neg (show (x :: todo).head?.getD 0 ≠ 0 from pos)]
    simp only [List.head?_cons, Option.getD_some, next, remove, free, Option.bind_eq_bind,
      Option.bind_some]
    exact rest

end Loop

/-- For every shape of the tree and every `free_func` that leaves it alone: every receptor is
given to `eh_free` once, children before their parent; nothing that is gone is touched, and no
event lists a receptor that is not there. -/
theorem ehEpollDelAdvanced_safe {freeFunc : Option (Nat → EpollMem E R → EpollMem E R)}
    {fuel : Nat} (tree : Represents m.rb t) (lists : ReceptorLists t m f)
    (there : ∀ x ∈ t.toList, m.freed x = false) (epoll : m.epollFreed = false)
    (fresh : m.passed = []) (harmless : Harmless t freeFunc) (enough : t.toList.length < fuel) :
    ∃ m' f', m.ehEpollDelAdvanced fuel freeFunc = some m' ∧ m'.epollFreed = true ∧
      (m'.passed.Nodup ∧ m'.passed.Perm t.toList) ∧
      (∀ x ∈ t.toList, m.rb.rbParent x ≠ 0 → [x, m.rb.rbParent x].Sublist m'.passed) ∧
      ReceptorLists t m' f' ∧ (∀ e x, .entry x ∈ f' e → m'.freed x = false) ∧
      (AllocatesNothing freeFunc → ∀ x ∈ t.toList, m'.freed x = true ∧ ∀ e, .entry x ∉ f' e) ∧
      (freeFunc = none → ∀ e, f' e = (f e).filter fun a => !a.among t.toList) := by
  have start : Deleting t m f freeFunc m t.postorder f := by
    refine ⟨by rw [fresh]; rfl, fun _ _ => rfl, fun x mem => ?_, epoll, lists, ?_, ?_⟩
    · exact there x (t.postorder_perm.mem_iff.mp mem)
    · simp [fresh]
    · intro _ e
      refine (List.filter_eq_self.mpr fun a _ => ?_).symm
      cases a <;> simp [ListNode.among, fresh]
  have size := t.postorder_perm.length_eq
  obtain ⟨m₁, f', loop, done⟩ := delLoop_run start tree harmless enough.le (size ▸ enough)
  have root : m.rb.rbNode = t.ptr := (tree.get 1 rfl).2
  have first : rbFirstPostorder m.load fuel m.rb.rbNode = some (t.postorder.head?.getD 0) := by
    rw [root, rbFirstPostorder]
    have inMem : t.In m.rb 0 := tree.get 0 rfl
    by_cases null : t.ptr = 0
    · rw [if_pos null]
      cases t with
      | nil => rfl
      | node c l x r => exact absurd null inMem.1.1
    · rw [if_neg null]
      exact rbLeftDeepestNode_run inMem null (start.load tree) enough.le
  have passed : m₁.passed = t.postorder := by simpa using done.order.symm
  refine ⟨{ m₁ with epollFreed := true }, f', ?_, rfl, ?_, fun x mem some => ?_, ?_, ?_, ?_, ?_⟩
  · simp only [ehEpollDelAdvanced, epoll, first, Option.bind_eq_bind, Option.bind_some, loop,
      done.epollFreed]
    rfl
  · rw [passed]
    have nodup := start.fresh tree
    rw [fresh] at nodup
    exact ⟨nodup, t.postorder_perm⟩
  · rw [passed]
    exact parent_ahead tree mem some
  · exact ⟨done.lists.rings, done.lists.live, done.lists.alone⟩
  · exact fun e x mem => done.lists.live mem
  · intro nothing x mem
    have freed := done.freed nothing x (passed ▸ t.postorder_perm.mem_iff.mpr mem)
    refine ⟨freed, fun e mem => ?_⟩
    have live := done.lists.live mem
    rw [freed] at live
    cases live
  · intro null e
    rw [done.same null e]
    refine List.filter_congr fun a _ => ?_
    cases a <;> simp [ListNode.among, passed, t.postorder_perm.mem_iff]

/-- The lists of two events: the first one has a receptor of the epoll and one of another. -/
def sharing : Bool → List (ListNode Bool Unit)
  | false => [.entry 4, .other ()]
  | true => [.entry 8]

def sharingLinks : Links (ListNode Bool Unit) where
  next
    | .head false => .entry 4
    | .head true => .entry 8
    | .entry x => if x = 4 then .other () else if x = 8 then .head true else .entry x
    | .other _ => .head false
  prev
    | .head false => .other ()
    | .head true => .entry 8
    | .entry x => if x = 4 then .head false else if x = 8 then .head true else .entry x
    | .other _ => .entry 4

theorem sharing_rings : Rings sharingLinks fun e => .head e :: sharing e where
  ring e := by
    cases e with
    | false => exact ⟨by simp [sharing], rfl, rfl, rfl, rfl, rfl, rfl⟩
    | true => exact ⟨by simp [sharing], rfl, rfl, rfl, rfl⟩
  disjoint {e e' x} mem mem' := by
    cases e <;> cases e' <;> cases x <;> simp_all [sharing]

/-- The child goes before the root, and the receptor of the other stays alone with its event. -/
theorem ehEpollDelAdvanced_safe_shared : ∃ m m' : EpollMem Bool Unit,
    m.links = sharingLinks ∧ m.rb.rbParent 4 = 8 ∧ m.ehEpollDelAdvanced 3 none = some m' ∧
      m'.passed = [4, 8] ∧ m'.freed 4 = true ∧ m'.freed 8 = true ∧
      m'.links.next (.head false) = .other () ∧ m'.links.next (.head true) = .head true := by
  have order : TotalPreorder fun a b => (a : Int) - b :=
    ⟨fun a b => by omega, fun a b c => by omega⟩
  obtain ⟨tree, run, parent⟩ : ∃ tree, Runs tree [8, 4] ∧ tree.rbParent 4 = 8 := by
    have first := (Runs.init (fun _ => ⟨0, 0, 0⟩) order).step
      (show Allowed _ _ (.add 8) from ⟨by decide, by decide⟩) (by decide : 0 < 2) rfl
    have second := first.step
      (show Allowed _ _ (.add 4) from ⟨by decide, by decide⟩) (by decide : 1 < 2) rfl
    exact ⟨_, second, rfl⟩
  obtain ⟨⟨t, holds⟩, -⟩ := run.holds
  have nodes : ∀ x, x ∈ t.toList ↔ x = 4 ∨ x = 8 := fun x => by
    rw [holds.nodes.mem_iff, List.mem_pair, or_comm]
  let m : EpollMem Bool Unit := ⟨tree.toRbMem, sharingLinks, fun _ => false, false, []⟩
  have lists : ReceptorLists t m sharing := by
    refine ⟨sharing_rings, fun _ => rfl, fun x mem _ out => ?_⟩
    rcases (nodes x).mp mem with rfl | rfl
    · exact absurd (List.mem_cons_self ..) (out false)
    · exact absurd (List.mem_cons_self ..) (out true)
  obtain ⟨m', f', del, -, ⟨-, all⟩, child, lists', -, nothing, rest⟩ :=
    ehEpollDelAdvanced_safe (m := m) holds.represents lists (fun _ _ => rfl) rfl rfl
      (show Harmless t none by simp [Harmless])
      (holds.nodes.length_eq ▸ by decide : t.toList.length < 3)
  have both := child 4 ((nodes 4).mpr (.inl rfl)) (show tree.rbParent 4 ≠ 0 by rw [parent]; decide)
  have freed := fun x mem => (nothing (by simp [AllocatesNothing]) x mem).1
  have queue : ∀ e, f' e = if e = false then [.other ()] else [] := fun e => by
    rw [rest rfl]
    cases e <;> simp [sharing, ListNode.among, nodes]
  refine ⟨m, m', rfl, parent, del, ?_, freed 4 ((nodes 4).mpr (.inl rfl)),
    freed 8 ((nodes 8).mpr (.inr rfl)), ?_, ?_⟩
  · change [4, tree.rbParent 4].Sublist m'.passed at both
    rw [parent] at both
    exact (both.eq_of_length (all.trans holds.nodes).length_eq.symm).symm
  · have ring := lists'.rings.ring false
    rw [queue] at ring
    exact ring.2.1
  · have ring := lists'.rings.ring true
    rw [queue] at ring
    exact ring.2.1

end EpollMem

end EventHub.Event
