import Mathlib.Data.Finset.Card
import Mathlib.Order.Interval.Finset.Nat
import Btide.Theory.Numbered
import Btide.Tree.Traverse

/-!
# `Tree.Allocated` — the memory that a tree takes

`buildTree` takes from memory the nodes of its tree and nothing else (`buildTree_allocates`): the calls
of `createNode` are counted (`recursiveTree_next`), and the nodes are as many different addresses in the
interval that was handed out, so they are all of it. `freeTree` gives back the same nodes
(`Labelled.freeTree`).
-/

namespace Btide

open LevelOrder Traversal

/-! ## Counting the nodes -/

/-- `m'` has handed out `n` more addresses than `m`. -/
def Takes (n : Nat) (m m' : Mem) : Prop := m'.nodes.next = m.nodes.next + n

theorem Takes.trans {i j : Nat} {m m' m'' : Mem} (h : Takes i m m') (h' : Takes j m' m'') :
    Takes (i + j) m m'' := by
  unfold Takes at h h' ⊢
  omega

theorem assign_takes {m m' : Mem} {p : Ptr} {f : TreeNode → TreeNode} (h : m.assign p f = .ok m') :
    Takes 0 m m' := by
  cases p with
  | none => cases h
  | some a =>
      obtain ⟨_, _, h⟩ := Run.bind_eq_ok.mp h
      cases h
      rfl

theorem createNode_takes (m : Mem) : Takes 1 m (createNode m).2 := rfl

theorem createChildren_takes {m m' : Mem} {p : Ptr} (h : createChildren m p = .ok m') :
    Takes 2 m m' := by
  obtain ⟨m₁, h₁, h⟩ := Run.bind_eq_ok.mp h
  obtain ⟨m₂, h₂, h⟩ := Run.bind_eq_ok.mp h
  obtain ⟨m₃, h₃, h⟩ := Run.bind_eq_ok.mp h
  have hleft := ((createNode_takes m).trans (assign_takes h₁)).trans (assign_takes h₂)
  have hright := ((createNode_takes m₂).trans (assign_takes h₃)).trans (assign_takes h)
  exact hleft.trans hright

theorem computeParentHash_takes {m m' : Mem} {p : Ptr} (h : computeParentHash m p = .ok m') :
    Takes 0 m m' := by
  obtain ⟨_, _, h⟩ := Run.bind_eq_ok.mp h
  obtain ⟨_, _, h⟩ := Run.bind_eq_ok.mp h
  obtain ⟨_, _, h⟩ := Run.bind_eq_ok.mp h
  obtain ⟨_, _, h⟩ := Run.bind_eq_ok.mp h
  obtain ⟨lefthash, _, h⟩ := Run.bind_eq_ok.mp h
  obtain ⟨righthash, _, h⟩ := Run.bind_eq_ok.mp h
  obtain ⟨_, _, h⟩ := Run.bind_eq_ok.mp h
  exact assign_takes (m := { m with hashed := m.hashed ++ [combine lefthash righthash] }) h

theorem hashIfRightChild_takes {m m' : Mem} {p : Ptr} (h : hashIfRightChild m p = .ok m') :
    Takes 0 m m' := by
  obtain ⟨_, _, h⟩ := Run.bind_eq_ok.mp h
  obtain ⟨_, _, h⟩ := Run.bind_eq_ok.mp h
  split at h
  · exact computeParentHash_takes h
  · cases h
    rfl

/-- A call with `j` levels below it creates two nodes for each inner node. -/
theorem recursiveTree_takes {hash : Option (List Str)} (j : Nat) :
    ∀ fuel m cur currentnode pos m',
      recursiveTree fuel m (cur + j) cur currentnode pos hash = .ok m' →
        Takes (2 ^ (j + 1) - 2) m m' := by
  induction j with
  | zero =>
      intro fuel m cur currentnode pos m' h
      cases fuel with
      | zero => cases h
      | succ fuel =>
          rw [recursiveTree, if_neg (by simp)] at h
          obtain ⟨m₁, h₁, h⟩ := Run.bind_eq_ok.mp h
          obtain ⟨_, _, h⟩ := Run.bind_eq_ok.mp h
          obtain ⟨m₂, h₂, h⟩ := Run.bind_eq_ok.mp h
          exact ((assign_takes h₁).trans (assign_takes h₂)).trans (hashIfRightChild_takes h)
  | succ j ih =>
      intro fuel m cur currentnode pos m' h
      cases fuel with
      | zero => cases h
      | succ fuel =>
          have hdepth : cur + ((j + 1 : Nat) : Int) = cur + 1 + (j : Int) := by omega
          rw [recursiveTree, if_pos (by omega)] at h
          obtain ⟨m₁, h₁, h⟩ := Run.bind_eq_ok.mp h
          obtain ⟨nextdepth, hnext, h⟩ := Run.bind_eq_ok.mp h
          obtain ⟨rfl, _, _⟩ := cInt_eq_ok.mp hnext
          obtain ⟨_, _, h⟩ := Run.bind_eq_ok.mp h
          obtain ⟨_, _, h⟩ := Run.bind_eq_ok.mp h
          obtain ⟨m₂, h₂, h⟩ := Run.bind_eq_ok.mp h
          obtain ⟨_, _, h⟩ := Run.bind_eq_ok.mp h
          obtain ⟨_, _, h⟩ := Run.bind_eq_ok.mp h
          obtain ⟨m₃, h₃, h⟩ := Run.bind_eq_ok.mp h
          obtain ⟨_, _, h⟩ := Run.bind_eq_ok.mp h
          rw [hdepth] at h₂ h₃
          have hlast : Takes 0 m₃ m' := by
            split at h
            · exact hashIfRightChild_takes h
            · cases h
              rfl
          have htakes := (((createChildren_takes h₁).trans (ih _ _ _ _ _ _ h₂)).trans
            (ih _ _ _ _ _ _ h₃)).trans hlast
          have hpow := Nat.pow_succ 2 (j + 1)
          have hpos : 2 ≤ 2 ^ (j + 1) := Nat.le_self_pow (by omega) 2
          have hcount : 2 + (2 ^ (j + 1) - 2) + (2 ^ (j + 1) - 2) + 0 = 2 ^ (j + 1 + 1) - 2 := by omega
          rwa [hcount] at htakes

theorem copyExpected_takes {bpkg : BpkgObj} {p : Ptr} {s s' : Deal} (h : copyExpected bpkg p s = .ok s') :
    Takes 0 s.mem s'.mem := by
  unfold copyExpected at h
  split at h
  · obtain ⟨_, _, h⟩ := Run.bind_eq_ok.mp h
    obtain ⟨m, hm, h⟩ := Run.bind_eq_ok.mp h
    obtain ⟨_, _, h⟩ := Run.bind_eq_ok.mp h
    cases h
    exact assign_takes hm
  · obtain ⟨_, _, h⟩ := Run.bind_eq_ok.mp h
    obtain ⟨m, hm, h⟩ := Run.bind_eq_ok.mp h
    obtain ⟨_, _, h⟩ := Run.bind_eq_ok.mp h
    cases h
    exact assign_takes hm

theorem levelOrderBody_takes {bpkg : BpkgObj} {s : Deal × List Ptr} {flow : Flow (Deal × List Ptr)}
    (h : levelOrderBody bpkg s = .ok flow) :
    ∃ s', flow = .next s' ∧ Takes 0 s.1.mem s'.1.mem := by
  obtain ⟨s₁, hcopy, h⟩ := Run.bind_eq_ok.mp h
  obtain ⟨cur, _, h⟩ := Run.bind_eq_ok.mp h
  cases h
  exact ⟨_, rfl, copyExpected_takes hcopy⟩

/-- Dealing out the expected hashes creates no node. -/
theorem levelOrderAddHash_takes {fuel : Nat} {m m' : Mem} {root : Ptr} {bpkg : BpkgObj}
    (h : levelOrderAddHash fuel m root bpkg = .ok m') : Takes 0 m m' := by
  obtain ⟨⟨s, queue⟩, hloop, h⟩ := Run.bind_eq_ok.mp h
  cases h
  have hinit : Takes 0 m m := rfl
  refine whileLoop_invariant (fun s : Deal × List Ptr => Takes 0 m s.1.mem) ?_ ?_ hinit hloop
  · intro s s' hs hbody
    obtain ⟨s'', hflow, htakes⟩ := levelOrderBody_takes hbody
    cases hflow
    exact hs.trans htakes
  · intro s s' hs hbody
    obtain ⟨s'', hflow, _⟩ := levelOrderBody_takes hbody
    cases hflow

/-- **The number of nodes**: one for the root, and two for each inner node. -/
theorem buildTree_takes {fuel n : Nat} {m m' : Mem} {bpkg bpkg' : BpkgObj}
    {calculatehash : Run (Option (List Str))} (hn : bpkg.nchunks.toInt = n)
    (h : buildTree fuel m bpkg calculatehash = .ok (m', bpkg')) :
    Takes (2 ^ (Nat.log 2 n + 1) - 1) m m' := by
  have hpos : 1 ≤ n := by
    have hpos := (buildTree_returns h).1
    omega
  obtain ⟨depth, hdepth, h⟩ := Run.bind_eq_ok.mp h
  obtain ⟨hash, _, h⟩ := Run.bind_eq_ok.mp h
  obtain ⟨m₁, h₁, h⟩ := Run.bind_eq_ok.mp h
  obtain ⟨m₂, h₂, h⟩ := Run.bind_eq_ok.mp h
  cases h
  have hdepth' : treeDepth bpkg.nchunks = .ok depth := hdepth
  rw [treeDepth_ok hn hpos] at hdepth'
  cases hdepth'
  rw [Int.add_comm] at h₁
  have htakes := ((createNode_takes m).trans (recursiveTree_takes _ _ _ _ _ _ _ h₁)).trans
    (levelOrderAddHash_takes h₂)
  have hpos : 2 ≤ 2 ^ (Nat.log 2 n + 1) := Nat.le_self_pow (by omega) 2
  have hcount : 1 + (2 ^ (Nat.log 2 n + 1) - 2) + 0 = 2 ^ (Nat.log 2 n + 1) - 1 := by omega
  rwa [hcount] at htakes

/-! ## The nodes are all of it -/

/-- An injection of the nodes into an interval of their number hits all of it. -/
theorem exists_node_of_injective {k a : Nat} {node : Nat → Nat}
    (hinj : ∀ v w, IsNode k v → IsNode k w → node v = node w → v = w)
    (hmem : ∀ w, IsNode k w → a ≤ node w ∧ node w < a + (2 ^ (k + 1) - 1)) {b : Nat} (hlo : a ≤ b)
    (hhi : b < a + (2 ^ (k + 1) - 1)) : ∃ w, IsNode k w ∧ node w = b := by
  let numbers := Finset.Ico 1 (2 ^ (k + 1))
  let addresses := Finset.Ico a (a + (2 ^ (k + 1) - 1))
  have hnode : ∀ w ∈ numbers, IsNode k w := fun w hw => Finset.mem_Ico.mp hw
  have hinj' : Set.InjOn node numbers := fun v hv w hw => hinj v w (hnode v hv) (hnode w hw)
  have hsub : numbers.image node ⊆ addresses := by
    intro b hb
    obtain ⟨w, hw, rfl⟩ := Finset.mem_image.mp hb
    exact Finset.mem_Ico.mpr (hmem w (hnode w hw))
  have hcard : addresses.card ≤ (numbers.image node).card := by
    rw [Finset.card_image_of_injOn hinj', Nat.card_Ico, Nat.card_Ico]
    omega
  have hall := Finset.eq_of_subset_of_card_le hsub hcard
  have hb : b ∈ numbers.image node := hall ▸ Finset.mem_Ico.mpr ⟨hlo, hhi⟩
  obtain ⟨w, hw, he⟩ := Finset.mem_image.mp hb
  exact ⟨w, hnode w hw, he⟩

/-- The addresses handed out between `m` and `m'` are those of the nodes of a tree of height `k`. -/
def Allocates (k : Nat) (node : Nat → Nat) (m m' : Mem) : Prop :=
  m.nodes.next ≤ m'.nodes.next ∧
    ∀ b, (m.nodes.next ≤ b ∧ b < m'.nodes.next) ↔ ∃ w, IsNode k w ∧ node w = b

/-- **The tree of a package takes its nodes from memory and nothing else.** -/
theorem buildTree_allocates {bpkg : BpkgObj} {hs : List Str} {cs : List ChunkInfo} {hashes : List Str}
    (m : Mem) (hlists : bpkg.Lists hs cs) {k : Nat} (hlog : Nat.log 2 cs.length = k) (hk : 1 ≤ k)
    (hhashes : 2 ^ k ≤ hashes.length) (henough : 2 ^ (k + 1) - 1 ≤ (listed hs cs).length) :
    ∃ m' node, Built k (computed k hashes) (expected hs cs) m m' m.nodes.next node ∧
      Allocates k node m m' ∧
      Settles (fun fuel => buildTree fuel m bpkg (.ok (some hashes)))
        (.ok (m', { bpkg with tree := some m.nodes.next })) := by
  obtain ⟨m₁, m', node, hg, hd, hrun⟩ := buildTree_dealt m hlists hlog hk hhashes henough
  have hbuilt := hg.deal rfl hd
  obtain ⟨fuel, hfuel⟩ := hrun
  have htakes : Takes (2 ^ (k + 1) - 1) m m' := by
    have h := buildTree_takes hlists.nchunks (hfuel fuel (Nat.le_refl _))
    rwa [hlog] at h
  have hrange : ∀ w, IsNode k w →
      m.nodes.next ≤ node w ∧ node w < m.nodes.next + (2 ^ (k + 1) - 1) := by
    intro w hw
    constructor
    · by_cases hone : w = 1
      · rw [hone, hg.self]
      · have hnew : m.nodes.next + 1 ≤ node w := hg.new w hw (above_root hw.1) hone
        omega
    · have hlt : node w < m'.nodes.next := hd.next ▸ hg.lt_next hw (above_root hw.1)
      rwa [htakes] at hlt
  refine ⟨m', node, hbuilt, ⟨?_, fun b => ⟨?_, ?_⟩⟩, fuel, hfuel⟩
  · rw [htakes]
    omega
  · rintro ⟨hlo, hhi⟩
    rw [htakes] at hhi
    exact exists_node_of_injective hbuilt.inj hrange hlo hhi
  · rintro ⟨w, hw, rfl⟩
    rw [htakes]
    exact hrange w hw

/-! ## Giving it back -/

section Labelled

variable {k root : Nat} {comp exp : Nat → Str} {m : Mem} {node : Nat → Nat}

/-- What lies in memory from a node downwards. -/
theorem Labelled.lies (h : Labelled k comp exp m root node) (d : Nat) :
    ∀ n, IsNode k n → Nat.log 2 n + d = k → Lies m (some (node n)) (numbered node d n) := by
  induction d with
  | zero =>
      intro n hn hlog
      have hleaf : IsLeaf k n := by
        refine ⟨?_, hn.2⟩
        rw [← hlog]
        exact Nat.pow_log_le_self 2 (by have := hn.1; omega)
      obtain ⟨nd, hnd, hb, _⟩ := h.nodes n hn
      obtain ⟨hl, hr, _⟩ := hb.leaf hleaf
      exact ⟨rfl, nd, hnd, hl, hr⟩
  | succ d ih =>
      intro n hn hlog
      have hin : IsInner k n := ⟨hn.1, Nat.lt_pow_of_log_lt (by omega) (by omega)⟩
      obtain ⟨nd, hnd, hb, _⟩ := h.nodes n hn
      obtain ⟨hl, hr, _⟩ := hb.inner hin
      have hlogl : Nat.log 2 (2 * n) = Nat.log 2 n + 1 := log_child (b := 0) (by omega) hn.1
      have hlogr : Nat.log 2 (2 * n + 1) = Nat.log 2 n + 1 := log_child (by omega) hn.1
      refine ⟨rfl, nd, hnd, ?_, ?_⟩
      · rw [hl]
        exact ih (2 * n) hin.left (by omega)
      · rw [hr]
        exact ih (2 * n + 1) hin.right (by omega)

theorem Labelled.isTree (h : Labelled k comp exp m root node)
    (hinj : ∀ v w, IsNode k v → IsNode k w → node v = node w → v = w) :
    IsTree m root (numbered node k 1) := by
  refine ⟨?_, nodup_numbered hinj⟩
  rw [← h.linked.root]
  exact h.lies k 1 isNode_root (by rw [Nat.log_one_right, Nat.zero_add])

/-- **`freeTree`** releases the nodes of the tree and leaves every other one alone. -/
theorem Labelled.freeTree (h : Labelled k comp exp m root node)
    (hinj : ∀ v w, IsNode k v → IsNode k w → node v = node w → v = w) :
    ∃ r, Settles (fun fuel => freeTree fuel m (some root)) (.ok r) ∧
      (∀ w, IsNode k w → r.mem.nodes.cells (node w) = none) ∧
      ∀ b, (∀ w, IsNode k w → node w ≠ b) → r.mem.nodes.cells b = m.nodes.cells b := by
  obtain ⟨r, hfreed, hrun⟩ := freeTree_released (h.isTree hinj)
  refine ⟨r, hrun, fun w hw => ?_, fun b hb => ?_⟩
  · exact hfreed.gone _ (mem_levelOrder.mpr (mem_numbered.mpr ⟨w, hw, rfl⟩))
  · refine hfreed.frame b fun hmem => ?_
    obtain ⟨w, hw, he⟩ := mem_numbered.mp (mem_levelOrder.mp hmem)
    exact hb w hw he

end Labelled

end Btide
