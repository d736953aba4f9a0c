import Btide.Theory.Traversal
import Btide.Tree.Queue

/-!
# `Tree.Traverse` — trees of any shape

The tree of a package is perfect, but the queue-driven traversal does not depend on it: on any tree whose
nodes lie in memory at distinct addresses it visits the nodes in level order (`traverse_settles`). So
`levelOrderAddHash` deals the entries out in level order, and `freeTree` releases every node once and
reads none that it has released.
-/

namespace Btide

open Traversal

/-- What one meets in memory by following `left` and `right` from a pointer. -/
def Lies (m : Mem) : Ptr → BinaryTree Addr → Prop
  | p, .nil => p = none
  | p, .node a l r =>
    p = some a ∧ ∃ nd, m.nodes.cells a = some nd ∧ Lies m nd.left l ∧ Lies m nd.right r

/-- The nodes of the tree `t` lie in memory, with the root at `root` and no two at one address. -/
structure IsTree (m : Mem) (root : Addr) (t : BinaryTree Addr) : Prop where
  lies : Lies m (some root) t
  distinct : (nodes t).Nodup

/-- The children that a node has in memory. -/
def children (m : Mem) (a : Addr) : List Addr :=
  match m.nodes.cells a with
  | none => []
  | some nd => nd.left.toList ++ nd.right.toList

section Layout

variable {m : Mem} {p : Ptr} {t : BinaryTree Addr} {a : Addr} {nd : TreeNode}

theorem children_of_cell (h : m.nodes.cells a = some nd) :
    children m a = nd.left.toList ++ nd.right.toList := by
  unfold children
  rw [h]

theorem Lies.root? (h : Lies m p t) : root? t = p := by
  cases t with
  | nil => exact h.symm
  | node a l r => exact h.1.symm

theorem Lies.hasKids (h : Lies m p t) : HasKids (children m) t := by
  induction t generalizing p with
  | nil => trivial
  | node a l r ihl ihr =>
      obtain ⟨-, nd, hnd, hl, hr⟩ := h
      refine ⟨?_, ihl hl, ihr hr⟩
      rw [children_of_cell hnd, hl.root?, hr.root?]

theorem Lies.exists_cell (h : Lies m p t) (ha : a ∈ nodes t) : ∃ nd, m.nodes.cells a = some nd := by
  induction t generalizing p with
  | nil => cases ha
  | node b l r ihl ihr =>
      obtain ⟨-, nd, hnd, hl, hr⟩ := h
      rw [nodes, List.mem_cons, List.mem_append] at ha
      rcases ha with rfl | ha | ha
      · exact ⟨nd, hnd⟩
      · exact ihl hl ha
      · exact ihr hr ha

theorem pushChildren_eq_append (cur : TreeNode) (queue : List Ptr) :
    pushChildren cur queue = queue ++ (cur.left.toList ++ cur.right.toList).map some := by
  obtain ⟨left, right, _, _, _, _, _⟩ := cur
  cases left <;> cases right <;> simp [pushChildren, queuePush]

end Layout

/-! ## The traversal -/

section Traversal

variable {σ : Type} {mem : σ → Mem} {before after : Ptr → σ → Run σ} {Inv : List Addr → σ → Prop}
  {m : Mem} {root : Addr} {t : BinaryTree Addr} {s : σ}

/-- **Level order.** The loop visits the nodes of a tree in level order, whatever it does with them, as
    long as it does not fail and finds the children of each node as they were. -/
theorem traverse_settles (h : Lies m (some root) t)
    (hvisit : ∀ pre a post s, levelOrder t = pre ++ a :: post → Inv pre s →
      ∃ s₁ cur s₂, before (some a) s = .ok s₁ ∧ (mem s₁).nodes.cells a = some cur ∧
        cur.left.toList ++ cur.right.toList = children m a ∧ after (some a) s₁ = .ok s₂ ∧
        Inv (pre ++ [a]) s₂) (hs : Inv [] s) :
    ∃ s', Inv (levelOrder t) s' ∧
      Settles (fun fuel => linkedLoop mem before after fuel s (some root)) (.ok s') := by
  have hpops := pops_levelOrder h.hasKids
  rw [h.root?] at hpops
  have hbody : ∀ pre a post s todo, levelOrder t = pre ++ a :: post → Inv pre s →
      ∃ s', traverseBody mem before after (s, queueOf id (a :: todo))
          = .ok (.next (s', queueOf id (todo ++ children m a))) ∧ Inv (pre ++ [a]) s' := by
    intro pre a post s todo hcut hInv
    obtain ⟨s₁, cur, s₂, hbefore, hcur, hchildren, hafter, hInv'⟩ := hvisit pre a post s hcut hInv
    refine ⟨s₂, ?_, hInv'⟩
    show (before (some a) s >>= fun s => (mem s).deref (some a) >>= fun cur => after (some a) s >>=
      fun s => .ok (Flow.next (s, pushChildren cur (queueOf id todo)))) = _
    rw [hbefore, Run.ok_bind, Mem.deref_ok hcur, Run.ok_bind, hafter, Run.ok_bind,
      pushChildren_eq_append, hchildren, queueOf_append]
    rfl
  obtain ⟨s', hs', hrun⟩ := queueLoop_drains hpops hbody hs
  exact ⟨s', hs', linkedLoop_settles hrun⟩

end Traversal

/-! ## The traversals of `merkletree.c` -/

/-- The memory, and the nodes that have been released, in order. -/
structure Release where
  mem : Mem
  released : List Addr

/-- `free(currentnode)`; releasing a node twice has no meaning. -/
def freeNode (currentnode : Ptr) (s : Release) : Run Release :=
  match currentnode with
  | none => .ok s
  | some a => do
    let _ ← s.mem.deref (some a)
    .ok { mem := { s.mem with nodes := s.mem.nodes.free a }, released := s.released ++ [a] }

/-- `freeTree`, up to the release of the tree's own structure. -/
def freeTree (fuel : Nat) (m : Mem) (root : Ptr) : Run Release :=
  linkedLoop Release.mem (fun _ s => .ok s) freeNode fuel { mem := m, released := [] } root

/-- `levelOrderAddHash` with the queue in memory. -/
def linkedLevelOrderAddHash (fuel : Nat) (m : Mem) (root : Ptr) (bpkg : BpkgObj) : Run Mem := do
  let s ← linkedLoop Deal.mem (copyExpected bpkg) (fun _ s => .ok s) fuel
    { mem := m, index := 0, index2 := 0 } root
  .ok s.mem

/-- The loop alone: the nodes that `queuePop` returns. -/
def visited (fuel : Nat) (m : Mem) (root : Ptr) : Run (List Ptr) :=
  linkedLoop (fun _ => m) (fun currentnode log => .ok (log ++ [currentnode])) (fun _ log => .ok log)
    fuel [] root

/-- What has been proved about `levelOrderAddHash` holds with the queue in memory. -/
theorem levelOrderAddHash_linked {m m' : Mem} {root : Ptr} {bpkg : BpkgObj}
    (h : Settles (fun fuel => levelOrderAddHash fuel m root bpkg) (.ok m')) :
    Settles (fun fuel => linkedLevelOrderAddHash fuel m root bpkg) (.ok m') := by
  obtain ⟨n, hn⟩ := h
  obtain ⟨⟨s, rest⟩, hloop, hmem⟩ := Run.bind_eq_ok.mp (hn n (Nat.le_refl n))
  cases hmem
  have hlist : Settles (fun fuel => queueLoop (traverseBody Deal.mem (copyExpected bpkg)
      (fun _ s => .ok s)) fuel ({ mem := m, index := 0, index2 := 0 }, queuePush [] root))
      (.ok (s, rest)) := whileLoop_settles hloop
  exact (linkedLoop_settles hlist).map Deal.mem

section Shapes

variable {m : Mem} {root : Addr} {t : BinaryTree Addr}

/-- The next node of a traversal is in memory and has not been visited. -/
theorem IsTree.visit (h : IsTree m root t) {pre post : List Addr} {a : Addr}
    (hcut : levelOrder t = pre ++ a :: post) : a ∉ pre ∧ ∃ nd, m.nodes.cells a = some nd := by
  have ha : a ∈ levelOrder t := by simp [hcut]
  have hnodup := nodup_levelOrder h.distinct
  rw [hcut] at hnodup
  constructor
  · intro hmem
    exact List.disjoint_of_nodup_append hnodup hmem List.mem_cons_self
  · exact h.lies.exists_cell (mem_levelOrder.mp ha)

/-- The loop visits the nodes in level order. -/
theorem visited_levelOrder (h : IsTree m root t) :
    Settles (fun fuel => visited fuel m (some root)) (.ok ((levelOrder t).map some)) := by
  have hvisit : ∀ pre a post (log : List Ptr), levelOrder t = pre ++ a :: post → log = pre.map some →
      ∃ s₁ cur s₂, (.ok (log ++ [some a]) : Run (List Ptr)) = .ok s₁ ∧ m.nodes.cells a = some cur ∧
        cur.left.toList ++ cur.right.toList = children m a ∧ (.ok s₁ : Run (List Ptr)) = .ok s₂ ∧
        s₂ = (pre ++ [a]).map some := by
    rintro pre a post log hcut rfl
    obtain ⟨-, cur, hcur⟩ := h.visit hcut
    exact ⟨_, cur, _, rfl, hcur, (children_of_cell hcur).symm, rfl, by simp⟩
  obtain ⟨log, rfl, hrun⟩ := @traverse_settles (List Ptr) (fun _ => m)
    (fun currentnode log => .ok (log ++ [currentnode])) (fun _ log => .ok log)
    (fun pre log => log = pre.map some) m root t [] h.lies hvisit rfl
  exact hrun

/-- The nodes `done` have been released, and nothing else has changed. -/
structure Freed (m : Mem) (done : List Addr) (s : Release) : Prop where
  released : s.released = done
  hashed : s.mem.hashed = m.hashed
  gone : ∀ a ∈ done, s.mem.nodes.cells a = none
  frame : ∀ a, a ∉ done → s.mem.nodes.cells a = m.nodes.cells a

/-- `freeTree` releases the nodes in level order, each of them once. -/
theorem freeTree_released (h : IsTree m root t) :
    ∃ s, Freed m (levelOrder t) s ∧ Settles (fun fuel => freeTree fuel m (some root)) (.ok s) := by
  have hinit : Freed m [] { mem := m, released := [] } :=
    ⟨rfl, rfl, fun _ ha => absurd ha List.not_mem_nil, fun _ _ => rfl⟩
  have hvisit : ∀ pre a post s, levelOrder t = pre ++ a :: post → Freed m pre s →
      ∃ s₁ cur s₂, (.ok s : Run Release) = .ok s₁ ∧ s₁.mem.nodes.cells a = some cur ∧
        cur.left.toList ++ cur.right.toList = children m a ∧ freeNode (some a) s₁ = .ok s₂ ∧
        Freed m (pre ++ [a]) s₂ := by
    intro pre a post s hcut hs
    obtain ⟨hnot, cur, hcur⟩ := h.visit hcut
    -- it has not been released before
    have hcur' : s.mem.nodes.cells a = some cur := (hs.frame a hnot).trans hcur
    have hfree : freeNode (some a) s = .ok
        { mem := { s.mem with nodes := s.mem.nodes.free a }
          released := s.released ++ [a] } := by
      unfold freeNode
      simp only [Mem.deref_ok hcur', Run.ok_bind]
    refine ⟨s, cur, _, rfl, hcur', (children_of_cell hcur).symm, hfree, ⟨?_, hs.hashed, ?_, ?_⟩⟩
    · show s.released ++ [a] = pre ++ [a]
      rw [hs.released]
    · intro b hb
      by_cases hba : b = a
      · rw [hba]
        exact Heap.free_cells_self _ a
      · refine (Heap.free_cells_ne hba).trans (hs.gone b ?_)
        simpa [hba] using hb
    · intro b hb
      rw [List.mem_append, List.mem_singleton, not_or] at hb
      exact (Heap.free_cells_ne hb.2).trans (hs.frame b hb.1)
  exact @traverse_settles Release Release.mem (fun _ s => .ok s) freeNode (Freed m) m root t _ h.lies
    hvisit hinit

/-- The nodes `done` have received their entries, and no node its children. -/
structure DealtTo (m : Mem) (hs : List Str) (cs : List ChunkInfo) (done : List Addr) (s : Deal) :
    Prop where
  entries : ∀ i a, done[i]? = some a →
    ∃ nd, s.mem.nodes.cells a = some nd ∧ nd.expectedHash = some (expected hs cs (i + 1))
  shape : ∀ a nd, m.nodes.cells a = some nd → ∃ nd', s.mem.nodes.cells a = some nd' ∧
    nd'.left = nd.left ∧ nd'.right = nd.right
  frame : ∀ a, a ∉ done → s.mem.nodes.cells a = m.nodes.cells a
  index : s.index = (min done.length hs.length : Nat)
  index2 : s.index2 = (done.length - hs.length : Nat)

/-- `levelOrderAddHash` deals the entries out in level order, if there are enough of them. -/
theorem levelOrderAddHash_dealtTo {bpkg : BpkgObj} {hs : List Str} {cs : List ChunkInfo}
    (h : IsTree m root t) (hlists : bpkg.Lists hs cs) (henough : t.numNodes ≤ (listed hs cs).length) :
    ∃ s, DealtTo m hs cs (levelOrder t) s ∧
      Settles (fun fuel => linkedLevelOrderAddHash fuel m (some root) bpkg) (.ok s.mem) := by
  have hinit : DealtTo m hs cs [] { mem := m, index := 0, index2 := 0 } := by
    refine ⟨fun i a ha => by simp at ha, fun a nd hnd => ⟨nd, hnd, rfl, rfl⟩, fun _ _ => rfl, ?_, ?_⟩
    · rw [List.length_nil, Nat.zero_min]
      rfl
    · rw [List.length_nil, Nat.zero_sub]
      rfl
  have hvisit : ∀ pre a post s, levelOrder t = pre ++ a :: post → DealtTo m hs cs pre s →
      ∃ s₁ cur s₂, copyExpected bpkg (some a) s = .ok s₁ ∧ s₁.mem.nodes.cells a = some cur ∧
        cur.left.toList ++ cur.right.toList = children m a ∧ (.ok s₁ : Run Deal) = .ok s₂ ∧
        DealtTo m hs cs (pre ++ [a]) s₂ := by
    intro pre a post s hcut hd
    obtain ⟨hnot, nd, hnd⟩ := h.visit hcut
    obtain ⟨nd', hnd', hleft, hright⟩ := hd.shape a nd hnd
    have hlen : pre.length < (listed hs cs).length := by
      have hall := congrArg List.length hcut
      rw [length_levelOrder, List.length_append, List.length_cons] at hall
      omega
    obtain ⟨s₁, hcopy, hmem, hindex, hindex2⟩ :=
      copyExpected_entry hlists hd.index hd.index2 hlen hnd'
    have hself : s₁.mem.nodes.cells a
        = some { nd' with expectedHash := some (expected hs cs (pre.length + 1)) } := by
      rw [hmem]
      exact Mem.store_cells_self hnd'
    have hother : ∀ b, b ≠ a → s₁.mem.nodes.cells b = s.mem.nodes.cells b := by
      intro b hb
      rw [hmem]
      exact Mem.store_cells_ne hb
    refine ⟨s₁, _, s₁, hcopy, hself, ?_, rfl, ⟨?_, ?_, ?_, ?_, ?_⟩⟩
    · rw [children_of_cell hnd, ← hleft, ← hright]
    · intro i b hb
      rw [List.getElem?_append] at hb
      by_cases hi : i < pre.length
      · rw [if_pos hi] at hb
        have hba : b ≠ a := fun he => hnot (he ▸ List.mem_of_getElem? hb)
        rw [hother b hba]
        exact hd.entries i b hb
      · rw [if_neg hi] at hb
        obtain ⟨hi', hba⟩ := List.getElem?_eq_some_iff.mp hb
        have hil : i = pre.length := by
          rw [List.length_singleton] at hi'
          omega
        obtain rfl : a = b := by simpa using hba
        rw [hil]
        exact ⟨_, hself, rfl⟩
    · intro b nd₀ hb
      by_cases hba : b = a
      · subst hba
        rw [hnd] at hb
        cases hb
        exact ⟨_, hself, hleft, hright⟩
      · rw [hother b hba]
        exact hd.shape b nd₀ hb
    · intro b hb
      rw [List.mem_append, List.mem_singleton, not_or] at hb
      exact (hother b hb.2).trans (hd.frame b hb.1)
    · rw [List.length_append]
      exact hindex
    · rw [List.length_append]
      exact hindex2
  obtain ⟨s, hs, hrun⟩ := @traverse_settles Deal Deal.mem (copyExpected bpkg) (fun _ s => .ok s)
    (DealtTo m hs cs) m root t _ h.lies hvisit hinit
  exact ⟨s, hs, hrun.map Deal.mem⟩

/-- **The queue-driven traversal.** On every tree, of any shape, the loop ends and visits each node
    exactly once, depth by depth and from left to right. So `levelOrderAddHash` gives the `i`-th node the
    `i`-th entry, and `freeTree` releases each node exactly once and reads none that it has released:
    reading or releasing one would not let it settle on a value. -/
theorem traversals_level_order (h : IsTree m root t) :
    (levelOrder t).Perm (nodes t) ∧ (levelOrder t).Nodup ∧
    Settles (fun fuel => visited fuel m (some root)) (.ok ((levelOrder t).map some)) ∧
    (∃ s, Freed m (levelOrder t) s ∧ Settles (fun fuel => freeTree fuel m (some root)) (.ok s)) ∧
    ∀ bpkg hs cs, BpkgObj.Lists bpkg hs cs → t.numNodes ≤ (listed hs cs).length →
      ∃ s, DealtTo m hs cs (levelOrder t) s ∧
        Settles (fun fuel => linkedLevelOrderAddHash fuel m (some root) bpkg) (.ok s.mem) := by
  refine ⟨levelOrder_perm t, nodup_levelOrder h.distinct, visited_levelOrder h, freeTree_released h, ?_⟩
  intro bpkg hs cs hlists henough
  exact levelOrderAddHash_dealtTo h hlists henough

/-- A tree that is not perfect: the root has a left child, and that has a right child. -/
def skewTree : BinaryTree Addr := .node 4 (.node 9 .nil (.node 2 .nil .nil)) .nil

def skewMem : Mem where
  nodes := ((Heap.empty.put 4 { TreeNode.new with left := some 9 }).put 9
    { TreeNode.new with right := some 2 }).put 2 TreeNode.new
  hashed := []

theorem traversals_level_order_skew :
    Settles (fun fuel => visited fuel skewMem (some 4)) (.ok [some 4, some 9, some 2]) ∧
    ∃ s, s.released = [4, 9, 2] ∧ Settles (fun fuel => freeTree fuel skewMem (some 4)) (.ok s) := by
  have h : IsTree skewMem 4 skewTree :=
    ⟨⟨rfl, _, rfl, ⟨rfl, _, rfl, rfl, rfl, _, rfl, rfl, rfl⟩, rfl⟩, by decide⟩
  obtain ⟨-, -, hvisited, ⟨s, hs, hrun⟩, -⟩ := traversals_level_order h
  exact ⟨hvisited, s, hs.released, hrun⟩

end Shapes

end Btide
