import Mathlib.Tactic.Ring
import Btide.Crypt.Stream
import Btide.Theory.Merkle
import Btide.Tree.Node

/-!
# `Tree.Build` — what `recursiveTree` builds

`recursiveTree` computes an inner node's hash late and elsewhere: in the last action of the call for its
right child, through the `parent` pointer. The induction therefore separates a call on a node `a` into
building everything below `a` (`Grown`), after which the hash of `a` is already in place, and the final
action on the parent of `a` (`hashIfRightChild`), whose effect is the business of the caller.

Nodes are numbered as in `Theory.LevelOrder`; `comp` is the Merkle labelling of the array of chunk
hashes, and `node w` is the address of the node numbered `w`.
-/

namespace Btide

open LevelOrder

/-! ## Memory operations -/

namespace Mem

variable {m : Mem} {a b : Addr} {nd : TreeNode} {f : TreeNode → TreeNode}

@[simp] theorem store_next : (m.store a f).nodes.next = m.nodes.next := rfl

@[simp] theorem store_hashed : (m.store a f).hashed = m.hashed := rfl

theorem store_cells_self (h : m.nodes.cells a = some nd) :
    (m.store a f).nodes.cells a = some (f nd) := by
  show (m.nodes.modify a f).cells a = _
  rw [Heap.modify_cells_self, h, Option.map_some]

theorem store_cells_ne (h : b ≠ a) : (m.store a f).nodes.cells b = m.nodes.cells b :=
  Heap.modify_cells_ne h

theorem deref_ok (h : m.nodes.cells a = some nd) : m.deref (some a) = .ok nd := by
  simp only [deref, h]

theorem assign_ok (h : m.nodes.cells a = some nd) : m.assign (some a) f = .ok (m.store a f) := by
  simp only [assign, deref_ok h, Run.ok_bind]

end Mem

theorem createNode_cells_self (m : Mem) :
    (createNode m).2.nodes.cells m.nodes.next = some TreeNode.new := Heap.alloc_cells_self _ _

theorem createNode_cells_lt {m : Mem} {b : Addr} (h : b < m.nodes.next) :
    (createNode m).2.nodes.cells b = m.nodes.cells b := Heap.alloc_cells_lt h

/-- The effect of `createChildren` on a node `a`. -/
structure ChildrenCreated (m m' : Mem) (a : Addr) (nd : TreeNode) : Prop where
  next : m'.nodes.next = m.nodes.next + 2
  hashed : m'.hashed = m.hashed
  self : m'.nodes.cells a
    = some { nd with left := some m.nodes.next, right := some (m.nodes.next + 1) }
  left : m'.nodes.cells m.nodes.next = some { TreeNode.new with parent := some a }
  right : m'.nodes.cells (m.nodes.next + 1) = some { TreeNode.new with parent := some a }
  frame : ∀ b, b < m.nodes.next → b ≠ a → m'.nodes.cells b = m.nodes.cells b

theorem createChildren_ok {m : Mem} {a : Addr} {nd : TreeNode} (h : m.nodes.cells a = some nd) :
    ∃ m', createChildren m (some a) = .ok m' ∧ ChildrenCreated m m' a nd := by
  have ha : a < m.nodes.next := Heap.lt_next h
  have hal : a ≠ m.nodes.next := Nat.ne_of_lt ha
  have har : a ≠ m.nodes.next + 1 := Nat.ne_of_lt (Nat.lt_succ_of_lt ha)
  have hlr : m.nodes.next ≠ m.nodes.next + 1 := Nat.ne_of_lt (Nat.lt_succ_self _)
  -- the memory after each of the six statements
  let m₁ := (createNode m).2
  let m₂ := m₁.store a fun nd => { nd with left := some m.nodes.next }
  let m₃ := m₂.store m.nodes.next fun nd => { nd with parent := some a }
  let m₄ := (createNode m₃).2
  let m₅ := m₄.store a fun nd => { nd with right := some (m.nodes.next + 1) }
  let m₆ := m₅.store (m.nodes.next + 1) fun nd => { nd with parent := some a }
  have h₁a : m₁.nodes.cells a = some nd := (createNode_cells_lt ha).trans h
  have h₁l : m₁.nodes.cells m.nodes.next = some TreeNode.new := createNode_cells_self m
  have h₂a : m₂.nodes.cells a = some { nd with left := some m.nodes.next } :=
    Mem.store_cells_self h₁a
  have h₂l : m₂.nodes.cells m.nodes.next = some TreeNode.new :=
    (Mem.store_cells_ne hal.symm).trans h₁l
  have h₃a : m₃.nodes.cells a = some { nd with left := some m.nodes.next } :=
    (Mem.store_cells_ne hal).trans h₂a
  have h₃l : m₃.nodes.cells m.nodes.next = some { TreeNode.new with parent := some a } :=
    Mem.store_cells_self h₂l
  have ha₃ : a < m₃.nodes.next := Nat.lt_succ_of_lt ha
  have hl₃ : m.nodes.next < m₃.nodes.next := Nat.lt_succ_self _
  have h₄a : m₄.nodes.cells a = some { nd with left := some m.nodes.next } :=
    (createNode_cells_lt ha₃).trans h₃a
  have h₄l : m₄.nodes.cells m.nodes.next = some { TreeNode.new with parent := some a } :=
    (createNode_cells_lt hl₃).trans h₃l
  have h₄r : m₄.nodes.cells (m.nodes.next + 1) = some TreeNode.new := createNode_cells_self m₃
  have h₅a : m₅.nodes.cells a
      = some { nd with left := some m.nodes.next, right := some (m.nodes.next + 1) } :=
    Mem.store_cells_self h₄a
  have h₅l : m₅.nodes.cells m.nodes.next = some { TreeNode.new with parent := some a } :=
    (Mem.store_cells_ne hal.symm).trans h₄l
  have h₅r : m₅.nodes.cells (m.nodes.next + 1) = some TreeNode.new :=
    (Mem.store_cells_ne har.symm).trans h₄r
  refine ⟨m₆, ?_, rfl, rfl, (Mem.store_cells_ne har).trans h₅a,
    (Mem.store_cells_ne hlr).trans h₅l, Mem.store_cells_self h₅r, ?_⟩
  · have e₁ : m₁.assign (some a) (fun nd => { nd with left := some m.nodes.next }) = .ok m₂ :=
      Mem.assign_ok h₁a
    have e₂ : m₂.assign (some m.nodes.next) (fun nd => { nd with parent := some a }) = .ok m₃ :=
      Mem.assign_ok h₂l
    have e₃ : m₄.assign (some a) (fun nd => { nd with right := some m₃.nodes.next }) = .ok m₅ :=
      Mem.assign_ok h₄a
    have e₄ : m₅.assign (some m₃.nodes.next) (fun nd => { nd with parent := some a }) = .ok m₆ :=
      Mem.assign_ok h₅r
    unfold createChildren
    show (m₁.assign (some a) _ >>= fun m => _) = _
    rw [e₁, Run.ok_bind]
    show (m₂.assign (some m.nodes.next) _ >>= fun m => _) = _
    rw [e₂, Run.ok_bind]
    show (m₄.assign (some a) _ >>= fun m => _) = _
    rw [e₃, Run.ok_bind]
    exact e₄
  · intro b hb hne
    have hbl : b ≠ m.nodes.next := Nat.ne_of_lt hb
    have hbr : b ≠ m.nodes.next + 1 := Nat.ne_of_lt (Nat.lt_succ_of_lt hb)
    have hb₃ : b < m₃.nodes.next := Nat.lt_succ_of_lt hb
    calc m₆.nodes.cells b = m₅.nodes.cells b := Mem.store_cells_ne hbr
      _ = m₄.nodes.cells b := Mem.store_cells_ne hne
      _ = m₃.nodes.cells b := createNode_cells_lt hb₃
      _ = m₂.nodes.cells b := Mem.store_cells_ne hbl
      _ = m₁.nodes.cells b := Mem.store_cells_ne hne
      _ = m.nodes.cells b := createNode_cells_lt hb

/-! ## Hashing a parent -/

/-- A string of the length that `combinedhash` can hold is hashed as a whole. -/
theorem sha256OfPieces_combine (x y : Str) :
    sha256OfPieces .local [combine x y] = .ok (Fips180.sha256Hex (combine x y)) := by
  have hlen : (combine x y).length ≤ 129 := List.length_take_le 129 (x ++ y)
  have hflat : [combine x y].flatten = combine x y := List.append_nil _
  have h := sha256OfPieces_eq .local [combine x y]
    (fun p hp => by rw [List.mem_singleton.mp hp]; omega) (by rw [hflat]; omega)
  rwa [hflat] at h

/-- The memory after `computeParentHash` has hashed `x` for the node at `a`. -/
def Mem.hashInto (m : Mem) (a : Addr) (x : Str) : Mem :=
  { m with hashed := m.hashed ++ [x] }.store a
    fun nd => { nd with computedHash := some (Fips180.sha256Hex x) }

theorem Mem.hashInto_cells_self {m : Mem} {a : Addr} {x : Str} {nd : TreeNode}
    (h : m.nodes.cells a = some nd) : (m.hashInto a x).nodes.cells a
      = some { nd with computedHash := some (Fips180.sha256Hex x) } :=
  Mem.store_cells_self (m := { m with hashed := m.hashed ++ [x] }) h

theorem Mem.hashInto_cells_ne {m : Mem} {a b : Addr} {x : Str} (h : b ≠ a) :
    (m.hashInto a x).nodes.cells b = m.nodes.cells b := Mem.store_cells_ne h

theorem computeParentHash_ok {m : Mem} {a l r : Addr} {p : Ptr} {cur parent left right : TreeNode}
    {x y : Str} (hcur : m.deref p = .ok cur) (hp : cur.parent = some a)
    (hparent : m.nodes.cells a = some parent) (hl : parent.left = some l)
    (hr : parent.right = some r) (hleft : m.nodes.cells l = some left)
    (hright : m.nodes.cells r = some right) (hx : left.computedHash = some x)
    (hy : right.computedHash = some y) :
    computeParentHash m p = .ok (m.hashInto a (combine x y)) := by
  rw [computeParentHash, hcur, Run.ok_bind, hp, Mem.deref_ok hparent, Run.ok_bind, hl,
    Mem.deref_ok hleft, Run.ok_bind, hr, Mem.deref_ok hright, Run.ok_bind, hx, hy]
  show (sha256OfPieces .local [combine x y] >>= fun hash => _) = _
  rw [sha256OfPieces_combine, Run.ok_bind]
  exact Mem.assign_ok (m := { m with hashed := m.hashed ++ [combine x y] }) hparent

/-! ## What a call builds -/

/-- The node numbered `n` of a finished tree. -/
structure BuiltNode (k : Nat) (comp : Nat → Str) (node : Nat → Nat) (n : Nat) (nd : TreeNode) :
    Prop where
  computed : nd.computedHash = some (comp n)
  inner : IsInner k n →
    nd.left = some (node (2 * n)) ∧ nd.right = some (node (2 * n + 1)) ∧ nd.isLeaf = 0
  leaf : IsLeaf k n →
    nd.left = none ∧ nd.right = none ∧ nd.isLeaf = 1 ∧ nd.position = some ((n - 2 ^ k : Nat) : Int)

/-- Everything from the node `n` downwards is in place, with the node itself at `a`: the other nodes are
    new and distinct, nothing else has changed, and the hashed strings are those of the inner nodes. -/
structure Grown (k : Nat) (comp : Nat → Str) (m m' : Mem) (n a : Nat) (parent : Ptr)
    (node : Nat → Nat) : Prop where
  self : node n = a
  next_le : m.nodes.next ≤ m'.nodes.next
  frame : ∀ b : Nat, b < m.nodes.next → b ≠ a → m'.nodes.cells b = m.nodes.cells b
  parent : ∃ nd, m'.nodes.cells a = some nd ∧ nd.parent = parent
  built : ∀ w, IsNode k w → Above n w →
    ∃ nd, m'.nodes.cells (node w) = some nd ∧ BuiltNode k comp node w nd
  new : ∀ w, IsNode k w → Above n w → w ≠ n → m.nodes.next ≤ node w
  inj : ∀ v w, IsNode k v → IsNode k w → Above n v → Above n w → node v = node w → v = w
  hashed : ∃ log, m'.hashed = m.hashed ++ log ∧
    ∀ x, x ∈ log ↔ ∃ w, IsInner k w ∧ Above n w ∧ x = combine (comp (2 * w)) (comp (2 * w + 1))

theorem Grown.lt_next {k n a w : Nat} {comp : Nat → Str} {m m' : Mem} {parent : Ptr}
    {node : Nat → Nat} (h : Grown k comp m m' n a parent node) (hw : IsNode k w) (hn : Above n w) :
    node w < m'.nodes.next := by
  obtain ⟨nd, hnd, _⟩ := h.built w hw hn
  exact Heap.lt_next hnd

theorem BuiltNode.congr {k n : Nat} {comp : Nat → Str} {node node' : Nat → Nat} {nd : TreeNode}
    (h : BuiltNode k comp node n nd) (hl : node (2 * n) = node' (2 * n))
    (hr : node (2 * n + 1) = node' (2 * n + 1)) : BuiltNode k comp node' n nd where
  computed := h.computed
  inner := fun hin => by rw [← hl, ← hr]; exact h.inner hin
  leaf := h.leaf

/-! ## Joining two subtrees -/

/-- The addresses of the nodes from `n` downwards: the node itself, and its two subtrees. -/
def graft (n a : Nat) (nodeL nodeR : Nat → Nat) (w : Nat) : Nat :=
  if Above (2 * n) w then nodeL w else if Above (2 * n + 1) w then nodeR w else a

section Graft

variable {n a w : Nat} {nodeL nodeR : Nat → Nat}

theorem graft_self (hn : 1 ≤ n) : graft n a nodeL nodeR n = a := by
  have hl : ¬ Above (2 * n) n := not_above_parent (b := 0) hn
  rw [graft, if_neg hl, if_neg (not_above_parent hn)]

theorem graft_left (h : Above (2 * n) w) : graft n a nodeL nodeR w = nodeL w := if_pos h

theorem graft_right (h : Above (2 * n + 1) w) : graft n a nodeL nodeR w = nodeR w := by
  rw [graft, if_neg fun hl => not_above_both hl h, if_pos h]

end Graft

section Join

variable {k n a : Nat} {comp : Nat → Str} {m m₁ m₂ m₃ : Mem} {nd : TreeNode} {nodeL nodeR : Nat → Nat}

/-- While the subtrees are built, the node above them keeps its links. -/
theorem parent_cells (ha : m.nodes.cells a = some nd) (hc : ChildrenCreated m m₁ a nd)
    (hL : Grown k comp m₁ m₂ (2 * n) m.nodes.next (some a) nodeL) :
    m₂.nodes.cells a
      = some { nd with left := some m.nodes.next, right := some (m.nodes.next + 1) } := by
  have hlt : a < m.nodes.next := Heap.lt_next ha
  have hnext := hc.next
  rw [hL.frame a (by omega) (by omega)]
  exact hc.self

theorem parent_cells' (ha : m.nodes.cells a = some nd) (hc : ChildrenCreated m m₁ a nd)
    (hL : Grown k comp m₁ m₂ (2 * n) m.nodes.next (some a) nodeL)
    (hR : Grown k comp m₂ m₃ (2 * n + 1) (m.nodes.next + 1) (some a) nodeR) :
    m₃.nodes.cells a
      = some { nd with left := some m.nodes.next, right := some (m.nodes.next + 1) } := by
  have hlt : a < m.nodes.next := Heap.lt_next ha
  have hnext := hc.next
  have hle := hL.next_le
  rw [hR.frame a (by omega) (by omega)]
  exact parent_cells ha hc hL

/-- The addresses of the left subtree lie between the node's and the right subtree's. -/
theorem left_bounds (hc : ChildrenCreated m m₁ a nd)
    (hL : Grown k comp m₁ m₂ (2 * n) m.nodes.next (some a) nodeL) {w : Nat} (hw : IsNode k w)
    (h : Above (2 * n) w) :
    m.nodes.next ≤ nodeL w ∧ nodeL w ≠ m.nodes.next + 1 ∧ nodeL w < m₂.nodes.next := by
  have hnext := hc.next
  have hlt := hL.lt_next hw h
  by_cases hself : w = 2 * n
  · have hroot : nodeL w = m.nodes.next := hself ▸ hL.self
    exact ⟨by omega, by omega, hlt⟩
  · have hnew := hL.new w hw h hself
    exact ⟨by omega, by omega, hlt⟩

theorem right_bounds (hR : Grown k comp m₂ m₃ (2 * n + 1) (m.nodes.next + 1) (some a) nodeR)
    {w : Nat} (hw : IsNode k w) (h : Above (2 * n + 1) w) :
    nodeR w = m.nodes.next + 1 ∨ m₂.nodes.next ≤ nodeR w := by
  by_cases hself : w = 2 * n + 1
  · exact Or.inl (hself ▸ hR.self)
  · exact Or.inr (hR.new w hw h hself)

/-- The final action of the call for the left child: nothing. -/
theorem hashIfRightChild_left (ha : m.nodes.cells a = some nd) (hc : ChildrenCreated m m₁ a nd)
    (hL : Grown k comp m₁ m₂ (2 * n) m.nodes.next (some a) nodeL) :
    hashIfRightChild m₂ (some m.nodes.next) = .ok m₂ := by
  obtain ⟨left, hleft, hp⟩ := hL.parent
  have hne : some (m.nodes.next + 1) ≠ some m.nodes.next := by simp
  rw [hashIfRightChild, Mem.deref_ok hleft, Run.ok_bind, hp, Mem.deref_ok (parent_cells ha hc hL),
    Run.ok_bind, if_neg hne]

/-- The final action of the call for the right child: the hash of the parent. -/
theorem hashIfRightChild_right (hin : IsInner k n) (ha : m.nodes.cells a = some nd)
    (hc : ChildrenCreated m m₁ a nd)
    (hL : Grown k comp m₁ m₂ (2 * n) m.nodes.next (some a) nodeL)
    (hR : Grown k comp m₂ m₃ (2 * n + 1) (m.nodes.next + 1) (some a) nodeR) :
    hashIfRightChild m₃ (some (m.nodes.next + 1))
      = .ok (m₃.hashInto a (combine (comp (2 * n)) (comp (2 * n + 1)))) := by
  have hnl : IsNode k (2 * n) := hin.left
  have hnr : IsNode k (2 * n + 1) := hin.right
  obtain ⟨right, hright, hp⟩ := hR.parent
  obtain ⟨right', hright', hbr⟩ := hR.built (2 * n + 1) hnr (Above.refl hnr.1)
  obtain ⟨left, hleft, hbl⟩ := hL.built (2 * n) hnl (Above.refl hnl.1)
  have hsame : right' = right := by
    rw [hR.self, hright] at hright'
    exact (Option.some.inj hright').symm
  have hb := left_bounds hc hL hnl (Above.refl hnl.1)
  rw [← hR.frame _ hb.2.2 hb.2.1, hL.self] at hleft
  have hparent := parent_cells' ha hc hL hR
  rw [hashIfRightChild, Mem.deref_ok hright, Run.ok_bind, hp, Mem.deref_ok hparent, Run.ok_bind,
    if_pos rfl]
  exact computeParentHash_ok (Mem.deref_ok hright) hp hparent rfl rfl hleft hright hbl.computed
    (hsame ▸ hbr.computed)

/-- The three kinds of nodes from `n` downwards, and where they are. -/
theorem graft_cases (hin : IsInner k n) (hc : ChildrenCreated m m₁ a nd)
    (hL : Grown k comp m₁ m₂ (2 * n) m.nodes.next (some a) nodeL)
    (hR : Grown k comp m₂ m₃ (2 * n + 1) (m.nodes.next + 1) (some a) nodeR) {w : Nat}
    (hw : IsNode k w) (h : Above n w) :
    (w = n ∧ graft n a nodeL nodeR w = a) ∨
    (Above (2 * n) w ∧ graft n a nodeL nodeR w = nodeL w ∧ m.nodes.next ≤ nodeL w ∧
      nodeL w ≠ m.nodes.next + 1 ∧ nodeL w < m₂.nodes.next) ∨
    (Above (2 * n + 1) w ∧ graft n a nodeL nodeR w = nodeR w ∧
      (nodeR w = m.nodes.next + 1 ∨ m₂.nodes.next ≤ nodeR w)) := by
  rcases h.cases_child with rfl | hl | hr
  · exact Or.inl ⟨rfl, graft_self hin.1⟩
  · exact Or.inr (Or.inl ⟨hl, graft_left hl, left_bounds hc hL hw hl⟩)
  · exact Or.inr (Or.inr ⟨hr, graft_right hr, right_bounds hR hw hr⟩)

/-- Different nodes have different addresses: those of the two subtrees lie in separate ranges. -/
theorem graft_inj (hin : IsInner k n) (hc : ChildrenCreated m m₁ a nd)
    (hL : Grown k comp m₁ m₂ (2 * n) m.nodes.next (some a) nodeL)
    (hR : Grown k comp m₂ m₃ (2 * n + 1) (m.nodes.next + 1) (some a) nodeR) (ha : a < m.nodes.next)
    {v w : Nat} (hv : IsNode k v) (hw : IsNode k w) (hnv : Above n v) (hnw : Above n w)
    (hvw : graft n a nodeL nodeR v = graft n a nodeL nodeR w) : v = w := by
  have hnext := hc.next
  have hle₂ := hL.next_le
  rcases graft_cases hin hc hL hR hv hnv with ⟨rfl, he⟩ | ⟨hl, he, hb⟩ | ⟨hr, he, hb⟩
  · rcases graft_cases hin hc hL hR hw hnw with ⟨rfl, he'⟩ | ⟨_, he', hb'⟩ | ⟨_, he', hb'⟩
    · rfl
    · omega
    · omega
  · rcases graft_cases hin hc hL hR hw hnw with ⟨rfl, he'⟩ | ⟨hl', he', hb'⟩ | ⟨_, he', hb'⟩
    · omega
    · exact hL.inj v w hv hw hl hl' (by omega)
    · omega
  · rcases graft_cases hin hc hL hR hw hnw with ⟨rfl, he'⟩ | ⟨_, he', hb'⟩ | ⟨hr', he', hb'⟩
    · omega
    · omega
    · exact hR.inj v w hv hw hr hr' (by omega)

/-- What has been hashed for the two subtrees and then for the node itself. -/
theorem joined_hashed (hin : IsInner k n) (hc : ChildrenCreated m m₁ a nd)
    (hL : Grown k comp m₁ m₂ (2 * n) m.nodes.next (some a) nodeL)
    (hR : Grown k comp m₂ m₃ (2 * n + 1) (m.nodes.next + 1) (some a) nodeR) :
    ∃ log, m₃.hashed ++ [combine (comp (2 * n)) (comp (2 * n + 1))] = m.hashed ++ log ∧
      ∀ x, x ∈ log ↔
        ∃ w, IsInner k w ∧ Above n w ∧ x = combine (comp (2 * w)) (comp (2 * w + 1)) := by
  obtain ⟨logL, hlogL, hmemL⟩ := hL.hashed
  obtain ⟨logR, hlogR, hmemR⟩ := hR.hashed
  refine ⟨logL ++ logR ++ [combine (comp (2 * n)) (comp (2 * n + 1))], ?_, fun x => ?_⟩
  · rw [hlogR, hlogL, hc.hashed, List.append_assoc, List.append_assoc, List.append_assoc]
  · rw [List.mem_append, List.mem_append, List.mem_singleton, hmemL, hmemR]
    constructor
    · rintro ((⟨w, hw, h, rfl⟩ | ⟨w, hw, h, rfl⟩) | rfl)
      · exact ⟨w, hw, ((Above.refl hin.1).child (by omega : 0 < 2)).trans h, rfl⟩
      · exact ⟨w, hw, ((Above.refl hin.1).child (by omega : 1 < 2)).trans h, rfl⟩
      · exact ⟨n, hin, Above.refl hin.1, rfl⟩
    · rintro ⟨w, hw, h, rfl⟩
      rcases h.cases_child with rfl | h | h
      · exact Or.inr rfl
      · exact Or.inl (Or.inl ⟨w, hw, h, rfl⟩)
      · exact Or.inl (Or.inr ⟨w, hw, h, rfl⟩)

/-- **An inner node and its two finished subtrees make a finished subtree**, once the node's hash has
    been stored. -/
theorem Grown.join (hin : IsInner k n)
    (hcomp : comp n = Fips180.sha256Hex (combine (comp (2 * n)) (comp (2 * n + 1))))
    (ha : m.nodes.cells a = some nd) (hleaf : nd.isLeaf = 0) (hc : ChildrenCreated m m₁ a nd)
    (hL : Grown k comp m₁ m₂ (2 * n) m.nodes.next (some a) nodeL)
    (hR : Grown k comp m₂ m₃ (2 * n + 1) (m.nodes.next + 1) (some a) nodeR) :
    Grown k comp m (m₃.hashInto a (combine (comp (2 * n)) (comp (2 * n + 1)))) n a nd.parent
      (graft n a nodeL nodeR) := by
  have hlt : a < m.nodes.next := Heap.lt_next ha
  have hnext := hc.next
  have hle₂ := hL.next_le
  have hle₃ := hR.next_le
  have hcell := Mem.hashInto_cells_self (x := combine (comp (2 * n)) (comp (2 * n + 1)))
    (parent_cells' ha hc hL hR)
  -- storing the hash touches no other node
  have hother : ∀ b : Nat, b ≠ a →
      (m₃.hashInto a (combine (comp (2 * n)) (comp (2 * n + 1)))).nodes.cells b
        = m₃.nodes.cells b := fun b hb => Mem.hashInto_cells_ne hb
  exact {
    self := graft_self hin.1
    next_le := by
      show m.nodes.next ≤ m₃.nodes.next
      omega
    frame := by
      intro b hb hne
      rw [hother b hne, hR.frame b (by omega) (by omega), hL.frame b (by omega) (by omega),
        hc.frame b hb hne]
    parent := ⟨_, hcell, rfl⟩
    built := by
      intro w hw h
      rcases graft_cases hin hc hL hR hw h with ⟨rfl, he⟩ | ⟨hl, he, hlo, hne, hhi⟩ | ⟨hr, he, hb⟩
      · -- the node itself
        refine ⟨_, by rw [he]; exact hcell, congrArg some hcomp.symm, fun _ => ?_, fun h => ?_⟩
        · rw [graft_left (Above.refl hin.left.1), graft_right (Above.refl hin.right.1), hL.self,
            hR.self]
          exact ⟨rfl, rfl, hleaf⟩
        · exact absurd h hin.not_isLeaf
      · obtain ⟨nd', hnd', hb'⟩ := hL.built w hw hl
        refine ⟨nd', ?_, hb'.congr (graft_left (hl.child (by omega : 0 < 2))).symm
          (graft_left (hl.child (by omega : 1 < 2))).symm⟩
        rw [he, hother _ (by omega), hR.frame _ hhi hne, hnd']
      · obtain ⟨nd', hnd', hb'⟩ := hR.built w hw hr
        refine ⟨nd', ?_, hb'.congr (graft_right (hr.child (by omega : 0 < 2))).symm
          (graft_right (hr.child (by omega : 1 < 2))).symm⟩
        rw [he, hother _ (by omega), hnd']
    new := by
      intro w hw h hne
      rcases graft_cases hin hc hL hR hw h with ⟨rfl, _⟩ | ⟨_, he, hlo, _⟩ | ⟨_, he, hb⟩
      · exact absurd rfl hne
      · omega
      · omega
    inj := fun _ _ hv hw hnv hnw hvw => graft_inj hin hc hL hR hlt hv hw hnv hnw hvw
    hashed := joined_hashed hin hc hL hR }

end Join

/-! ## The recursion -/

/-- The computed hash of the leaf `n`: what `strncpy` takes from the chunk's computed hash. -/
def leafHash (k : Nat) (hashes : List Str) (n : Nat) : Str := (hashes.getD (n - 2 ^ k) []).take 64

/-- The computed hashes of all nodes: a Merkle labelling. -/
def computed (k : Nat) (hashes : List Str) : Nat → Str :=
  label Fips180.sha256Hex combine k (leafHash k hashes)

theorem computed_leaf {k n : Nat} {hashes : List Str} (h : IsLeaf k n) :
    computed k hashes n = leafHash k hashes n := label_leaf h

theorem computed_labels (k : Nat) (hashes : List Str) :
    Labels Fips180.sha256Hex combine k (computed k hashes) := labels_label _ _ _ _

/-- The leaf's share of a call. -/
theorem recursiveTree_leaf {k n a p : Nat} {m : Mem} {nd : TreeNode} {hashes : List Str}
    {depth : Int} (hleaf : IsLeaf k n) (hp : p + 2 ^ k = n) (hlen : 2 ^ k ≤ hashes.length)
    (ha : m.nodes.cells a = some nd) (hl : nd.left = none) (hr : nd.right = none) :
    ∃ m', Grown k (computed k hashes) m m' n a nd.parent (fun _ => a) ∧
      ∀ fuel, recursiveTree (fuel + 1) m depth depth (some a) p (some hashes)
        = hashIfRightChild m' (some a) := by
  have hpow := Nat.pow_succ 2 k
  have hplt : p < hashes.length := by have := hleaf.2; omega
  have hpn : n - 2 ^ k = p := by omega
  have hhash : chunkHash (some hashes) p = .ok hashes[p] := by
    rw [chunkHash, if_neg (by omega)]
    exact index_ok (List.getElem?_eq_getElem hplt)
  have hcomp : computed k hashes n = hashes[p].take 64 := by
    rw [computed_leaf hleaf, leafHash, hpn, List.getD_eq_getElem _ _ hplt]
  -- nothing but the leaf itself lies at or below it
  have honly : ∀ w, IsNode k w → Above n w → w = n := by
    intro w hw h
    rcases h.cases_child with rfl | h | h
    · rfl
    · have h₁ := h.le
      have h₂ := hw.2
      have h₃ := hleaf.1
      omega
    · have h₁ := h.le
      have h₂ := hw.2
      have h₃ := hleaf.1
      omega
  let m₁ := m.store a fun nd => { nd with isLeaf := 1, position := some (p : Int) }
  let m₂ := m₁.store a fun nd => { nd with computedHash := some (hashes[p].take 64) }
  have h₁ : m₁.nodes.cells a = some { nd with isLeaf := 1, position := some (p : Int) } :=
    Mem.store_cells_self ha
  have h₂ := Mem.store_cells_self
    (f := fun nd => { nd with computedHash := some (hashes[p].take 64) }) h₁
  refine ⟨m₂, ⟨rfl, Nat.le_refl _, ?_, ⟨_, h₂, rfl⟩, ?_, ?_, ?_, ⟨[], ?_, ?_⟩⟩, ?_⟩
  · intro b _ hb
    exact (Mem.store_cells_ne hb).trans (Mem.store_cells_ne hb)
  · intro w hw h
    obtain rfl := honly w hw h
    refine ⟨_, h₂, congrArg some hcomp.symm, fun hin => absurd hleaf hin.not_isLeaf, fun _ => ?_⟩
    exact ⟨hl, hr, rfl, by rw [hpn]⟩
  · intro w hw h hne
    exact absurd (honly w hw h) hne
  · intro v w hv hw hnv hnw _
    rw [honly v hv hnv, honly w hw hnw]
  · show m.hashed = _
    rw [List.append_nil]
  · intro x
    constructor
    · intro h
      cases h
    · rintro ⟨w, hw, h, _⟩
      exact absurd hleaf (honly w hw.isNode h ▸ hw).not_isLeaf
  · have e₁ : m.assign (some a) (fun nd => { nd with isLeaf := 1, position := some (p : Int) })
        = .ok m₁ := Mem.assign_ok ha
    have e₂ : m₁.assign (some a) (fun nd => { nd with computedHash := some (hashes[p].take 64) })
        = .ok m₂ := Mem.assign_ok h₁
    intro fuel
    rw [recursiveTree, if_neg (fun h => h rfl), e₁, Run.ok_bind, hhash, Run.ok_bind, e₂, Run.ok_bind]

/-- **What a call builds.** The call for the node `n` builds everything from `n` downwards and then, unless
    `n` is an inner node without a parent, acts on the parent of `n`. -/
theorem recursiveTree_grown {k : Nat} {hashes : List Str} (hk : k ≤ 31)
    (hlen : 2 ^ k ≤ hashes.length) (j : Nat) :
    ∀ m n a p nd, IsNode k n → Nat.log 2 n + j = k → p + 2 ^ Nat.log 2 n = n →
      m.nodes.cells a = some nd → nd.left = none → nd.right = none → nd.isLeaf = 0 →
      ∃ m' node, Grown k (computed k hashes) m m' n a nd.parent node ∧ ∀ fuel, j < fuel →
        recursiveTree fuel m (k + 1) (Nat.log 2 n + 1 : Nat) (some a) p (some hashes)
          = if j ≠ 0 ∧ nd.parent = none then .ok m' else hashIfRightChild m' (some a) := by
  induction j with
  | zero =>
      intro m n a p nd hn hj hp ha hl hr _
      have hlog : Nat.log 2 n = k := hj
      rw [hlog] at hp ⊢
      have hleaf : IsLeaf k n := ⟨by omega, hn.2⟩
      obtain ⟨m', hg, hrun⟩ := @recursiveTree_leaf _ _ _ _ _ _ _ ((k : Int) + 1) hleaf hp hlen
        ha hl hr
      refine ⟨m', fun _ => a, hg, fun fuel hfuel => ?_⟩
      obtain ⟨fuel, rfl⟩ := Nat.exists_eq_succ_of_ne_zero (Nat.ne_of_gt hfuel)
      rw [if_neg (by simp)]
      exact hrun fuel
  | succ j ih =>
      intro m n a p nd hn hj hp ha hl hr hleaf
      have hn1 := hn.1
      have hlog : Nat.log 2 n < k := by omega
      have hin : IsInner k n := ⟨hn1, Nat.lt_pow_of_log_lt (by omega) hlog⟩
      have hlogl : Nat.log 2 (2 * n) = Nat.log 2 n + 1 := log_child (b := 0) (by omega) hn1
      have hlogr : Nat.log 2 (2 * n + 1) = Nat.log 2 n + 1 := log_child (by omega) hn1
      have hpow := Nat.pow_succ 2 (Nat.log 2 n)
      obtain ⟨m₁, hrun₁, hc⟩ := createChildren_ok ha
      obtain ⟨m₂, nodeL, hL, hrun₂⟩ := ih m₁ (2 * n) m.nodes.next (p * 2) _
        hin.left (by omega) (by rw [hlogl]; omega) hc.left rfl rfl rfl
      have hright : m₂.nodes.cells (m.nodes.next + 1)
          = some { TreeNode.new with parent := some a } := by
        have hnext := hc.next
        rw [hL.frame _ (by omega) (by omega)]
        exact hc.right
      obtain ⟨m₃, nodeR, hR, hrun₃⟩ := ih m₂ (2 * n + 1) (m.nodes.next + 1) (p * 2 + 1) _
        hin.right (by omega) (by rw [hlogr]; omega) hright rfl rfl rfl
      have hcomp := computed_labels k hashes n hin
      have hjoin := Grown.join hin hcomp ha hleaf hc hL hR
      refine ⟨_, _, hjoin, fun fuel hfuel => ?_⟩
      obtain ⟨fuel, rfl⟩ := Nat.exists_eq_succ_of_ne_zero (by omega : fuel ≠ 0)
      have hrun₂ := hrun₂ fuel (by omega)
      have hrun₃ := hrun₃ fuel (by omega)
      -- the `int` expressions stay within the positions of the leaves
      have hsmall : p * 2 + 1 < 2 ^ 31 := by
        have hnhi : n < 2 ^ (Nat.log 2 n + 1) := Nat.lt_pow_succ_log_self (by omega) n
        have hle : 2 ^ (Nat.log 2 n + 1) ≤ 2 ^ 31 := Nat.pow_le_pow_right (by omega) (by omega)
        omega
      have hdepth : ((Nat.log 2 n + 1 : Nat) : Int) ≠ (k : Int) + 1 := by omega
      have e₁ : cInt (((Nat.log 2 n + 1 : Nat) : Int) + 1)
          = .ok ((Nat.log 2 n + 1 + 1 : Nat) : Int) :=
        cInt_ok (by unfold INT_MIN; omega) (by unfold INT_MAX; omega)
      have e₂ : cInt ((p : Int) * 2) = .ok ((p * 2 : Nat) : Int) :=
        cInt_ok (by unfold INT_MIN; omega) (by unfold INT_MAX; omega)
      have e₃ : cInt ((p : Int) * 2 + 1) = .ok ((p * 2 + 1 : Nat) : Int) :=
        cInt_ok (by unfold INT_MIN; omega) (by unfold INT_MAX; omega)
      rw [hlogl, if_neg (by simp), hashIfRightChild_left ha hc hL] at hrun₂
      rw [hlogr, if_neg (by simp), hashIfRightChild_right hin ha hc hL hR] at hrun₃
      obtain ⟨cur, hcur, hparent⟩ := hjoin.parent
      rw [recursiveTree, if_pos hdepth, hrun₁, Run.ok_bind, e₁, Run.ok_bind, e₂, Run.ok_bind,
        Mem.deref_ok hc.self, Run.ok_bind, hrun₂, Run.ok_bind, e₃, Run.ok_bind,
        Mem.deref_ok (parent_cells ha hc hL), Run.ok_bind, hrun₃, Run.ok_bind, Mem.deref_ok hcur,
        Run.ok_bind, hparent]
      by_cases hroot : nd.parent = none
      · rw [if_neg (fun h => h hroot), if_pos ⟨by omega, hroot⟩]
      · rw [if_pos hroot, if_neg (fun h => hroot h.2)]

/-- **A tree of height at least 1 is built**, whatever the memory held before. -/
theorem recursiveTree_root {k : Nat} {hashes : List Str} (m : Mem) (hk1 : 1 ≤ k) (hk : k ≤ 31)
    (hlen : 2 ^ k ≤ hashes.length) :
    ∃ m' node, Grown k (computed k hashes) (initialiseTree m).2 m' 1 m.nodes.next none node ∧
      Settles (fun fuel => recursiveTree fuel (initialiseTree m).2 (k + 1) 1
        (some (initialiseTree m).1) 0 (some hashes)) (.ok m') := by
  have hroot : (initialiseTree m).2.nodes.cells m.nodes.next = some TreeNode.new :=
    createNode_cells_self m
  -- the node 1 stands at position 0
  have hlog : Nat.log 2 1 = 0 := Nat.log_one_right 2
  obtain ⟨m', node, hg, hrun⟩ := recursiveTree_grown hk hlen k _ 1 _ 0 _ isNode_root
    (by omega) (by rw [hlog, Nat.pow_zero]) hroot rfl rfl rfl
  refine ⟨m', node, hg, k + 1, fun fuel hfuel => ?_⟩
  have h := hrun fuel hfuel
  rw [hlog, if_pos ⟨by omega, rfl⟩] at h
  exact h

/-- A single chunk hash: the root is a leaf, and its missing parent is read. -/
theorem recursiveTree_single (m : Mem) {hashes : List Str} (hlen : 1 ≤ hashes.length) (fuel : Nat) :
    recursiveTree (fuel + 1) (initialiseTree m).2 1 1 (some (initialiseTree m).1) 0 (some hashes)
      = .error .nullDeref := by
  have hroot : (initialiseTree m).2.nodes.cells m.nodes.next = some TreeNode.new :=
    createNode_cells_self m
  obtain ⟨m', hg, hrun⟩ := @recursiveTree_leaf 0 1 _ 0 _ _ hashes 1 ⟨Nat.le_refl 1, by omega⟩ rfl
    hlen hroot rfl rfl
  obtain ⟨nd, hnd, hparent⟩ := hg.parent
  have h := hrun fuel
  rw [hashIfRightChild, Mem.deref_ok hnd, Run.ok_bind, hparent] at h
  exact h

/-- Without an array of hashes no call returns. -/
theorem recursiveTree_null (fuel : Nat) : ∀ m depth currentdepth currentnode position m',
    recursiveTree fuel m depth currentdepth currentnode position none ≠ .ok m' := by
  induction fuel with
  | zero =>
      intro m depth currentdepth currentnode position m' h
      cases h
  | succ fuel ih =>
      intro m depth currentdepth currentnode position m' h
      unfold recursiveTree at h
      split at h
      · -- the call for the left child does not return
        obtain ⟨m₁, _, h⟩ := Run.bind_eq_ok.mp h
        obtain ⟨next, _, h⟩ := Run.bind_eq_ok.mp h
        obtain ⟨left, _, h⟩ := Run.bind_eq_ok.mp h
        obtain ⟨cur, _, h⟩ := Run.bind_eq_ok.mp h
        obtain ⟨m₂, hrec, _⟩ := Run.bind_eq_ok.mp h
        exact ih _ _ _ _ _ _ hrec
      · obtain ⟨m₁, _, h⟩ := Run.bind_eq_ok.mp h
        obtain ⟨hash, hhash, _⟩ := Run.bind_eq_ok.mp h
        cases hhash

/-- A call that returns has stayed within the range of `int` on the way to its last leaf. -/
theorem recursiveTree_position_le {hash : Option (List Str)} (j : Nat) :
    ∀ fuel m cur currentnode pos m', pos ≤ INT_MAX →
      recursiveTree fuel m (cur + j) cur currentnode pos hash = .ok m' →
      (pos + 1) * 2 ^ j ≤ INT_MAX + 1 := by
  induction j with
  | zero =>
      intro fuel m cur currentnode pos m' hpos _
      rw [pow_zero, mul_one]
      omega
  | succ j ih =>
      intro fuel m cur currentnode pos m' _ hrun
      cases fuel with
      | zero => cases hrun
      | succ fuel =>
          have hne : cur ≠ cur + ((j + 1 : Nat) : Int) := by omega
          rw [recursiveTree, if_pos hne] at hrun
          -- walk to the call for the right child
          obtain ⟨m₁, _, hrun⟩ := Run.bind_eq_ok.mp hrun
          obtain ⟨next, hnext, hrun⟩ := Run.bind_eq_ok.mp hrun
          obtain ⟨left, _, hrun⟩ := Run.bind_eq_ok.mp hrun
          obtain ⟨nd, _, hrun⟩ := Run.bind_eq_ok.mp hrun
          obtain ⟨m₂, _, hrun⟩ := Run.bind_eq_ok.mp hrun
          obtain ⟨right, hright, hrun⟩ := Run.bind_eq_ok.mp hrun
          obtain ⟨nd', _, hrun⟩ := Run.bind_eq_ok.mp hrun
          obtain ⟨m₃, hrec, _⟩ := Run.bind_eq_ok.mp hrun
          obtain ⟨rfl, _, _⟩ := cInt_eq_ok.mp hnext
          obtain ⟨rfl, _, hle⟩ := cInt_eq_ok.mp hright
          have hdepth : cur + ((j + 1 : Nat) : Int) = cur + 1 + (j : Int) := by omega
          rw [hdepth] at hrec
          have h := ih fuel m₂ (cur + 1) nd'.right (pos * 2 + 1) m₃ hle hrec
          calc (pos + 1) * 2 ^ (j + 1) = (pos * 2 + 1 + 1) * 2 ^ j := by ring
            _ ≤ INT_MAX + 1 := h

/-- No tree of a height above 31 is ever built. -/
theorem height_le_of_ok {k fuel : Nat} {m m' : Mem} {currentnode : Ptr} {hash : Option (List Str)}
    (h : recursiveTree fuel m (k + 1) 1 currentnode 0 hash = .ok m') : k ≤ 31 := by
  rw [add_comm] at h
  have hle := recursiveTree_position_le k fuel m 1 currentnode 0 m' (by unfold INT_MAX; omega) h
  by_contra hk
  have hpow : 2 ^ 32 ≤ 2 ^ k := Nat.pow_le_pow_right (by omega) (by omega)
  have hcast : ((0 : Int) + 1) * 2 ^ k = ((2 ^ k : Nat) : Int) := by
    rw [Nat.cast_pow, zero_add, one_mul, Nat.cast_ofNat]
  rw [hcast] at hle
  unfold INT_MAX at hle
  omega

/-! ## Finding the nodes -/

/-- `node` is the way through the links of the tree at `root`. -/
structure Linked (k : Nat) (m : Mem) (root : Nat) (node : Nat → Nat) : Prop where
  root : node 1 = root
  links : ∀ w, IsInner k w → ∃ nd, m.nodes.cells (node w) = some nd ∧
    nd.left = some (node (2 * w)) ∧ nd.right = some (node (2 * w + 1))

theorem Linked.nodeAt {k root n : Nat} {m : Mem} {node : Nat → Nat} (h : Linked k m root node)
    (hn : IsNode k n) : m.nodeAt root n = some (node n) := by
  induction n using Nat.strong_induction_on with
  | h n ih =>
      have h1 := hn.1
      have h2 := hn.2
      have hpow := Nat.pow_succ 2 k
      rw [Mem.nodeAt, if_neg (by omega)]
      by_cases hone : n = 1
      · rw [if_pos hone, hone, h.root]
      · have hparent : IsInner k (n / 2) := ⟨by omega, by omega⟩
        obtain ⟨nd, hnd, hl, hr⟩ := h.links (n / 2) hparent
        rw [if_neg hone, ih (n / 2) (by omega) hparent.isNode]
        show (m.nodes.cells (node (n / 2)) >>= fun nd => if n % 2 = 0 then nd.left else nd.right) = _
        rw [hnd]
        by_cases heven : n % 2 = 0
        · have hn2 : 2 * (n / 2) = n := by omega
          show (if n % 2 = 0 then nd.left else nd.right) = _
          rw [if_pos heven, hl, hn2]
        · have hn2 : 2 * (n / 2) + 1 = n := by omega
          show (if n % 2 = 0 then nd.left else nd.right) = _
          rw [if_neg heven, hr, hn2]

theorem Grown.linked {k root : Nat} {comp : Nat → Str} {m m' : Mem} {parent : Ptr}
    {node : Nat → Nat} (h : Grown k comp m m' 1 root parent node) : Linked k m' root node where
  root := h.self
  links := fun w hw => by
    obtain ⟨nd, hnd, hb⟩ := h.built w hw.isNode (above_root hw.1)
    exact ⟨nd, hnd, (hb.inner hw).1, (hb.inner hw).2.1⟩

theorem Linked.computedAt {k root n : Nat} {m : Mem} {node : Nat → Nat} {nd : TreeNode}
    (h : Linked k m root node) (hn : IsNode k n) (hnd : m.nodes.cells (node n) = some nd) :
    m.computedAt root n = nd.computedHash := by
  rw [Mem.computedAt, h.nodeAt hn]
  show (m.nodes.cells (node n) >>= fun nd => nd.computedHash) = _
  rw [hnd]
  rfl

theorem Linked.expectedAt {k root n : Nat} {m : Mem} {node : Nat → Nat} {nd : TreeNode}
    (h : Linked k m root node) (hn : IsNode k n) (hnd : m.nodes.cells (node n) = some nd) :
    m.expectedAt root n = nd.expectedHash := by
  rw [Mem.expectedAt, h.nodeAt hn]
  show (m.nodes.cells (node n) >>= fun nd => nd.expectedHash) = _
  rw [hnd]
  rfl

end Btide
