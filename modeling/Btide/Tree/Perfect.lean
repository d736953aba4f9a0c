import Btide.Chk.RoundTrip
import Btide.Tree.Match

/-!
# `Tree.Perfect` — which loaded packages get a perfect tree

The loader's one shape check is `nchunks == nhashes + 1`; its comment says that otherwise the tree is not
perfect. The builder grows a tree of height `log2(nchunks)`, so the tree has a leaf for every chunk only
if the number of chunks is a power of two, and it reads the parent of its first leaf, which is NULL if
there is a single chunk. `loaded_tree_perfect_iff` gives the exact condition in terms of the counts that
the file's lines give (`nhashesOf`, `nchunksOf`).

The height is bounded by `recursiveTree` itself: its `position` is an `int`, which numbers the leaves of
a tree of height 31 at most (`recursiveTree_perfect`).
-/

namespace Btide

open LevelOrder

/-- The tree at `root` is perfect: its nodes, numbered in level order, are distinct, the first
    `2 ^ k - 1` are inner nodes that link to their children, and the `2 ^ k` after them are leaves, at the
    positions `0, 1, …` of their chunks. -/
structure PerfectTree (k : Nat) (m : Mem) (root : Nat) (node : Nat → Nat) : Prop where
  root : node 1 = root
  distinct : ∀ v w, IsNode k v → IsNode k w → node v = node w → v = w
  inner : ∀ w, IsInner k w → ∃ nd, m.nodes.cells (node w) = some nd ∧
    nd.left = some (node (2 * w)) ∧ nd.right = some (node (2 * w + 1)) ∧ nd.isLeaf = 0
  leaf : ∀ i, i < 2 ^ k → ∃ nd, m.nodes.cells (node (2 ^ k + i)) = some nd ∧
    nd.left = none ∧ nd.right = none ∧ nd.isLeaf = 1 ∧ nd.position = some (i : Int)

/-- `initialiseTree` and the call of `recursiveTree`, as `main` and `add_package` have them. -/
def growTree (fuel : Nat) (m : Mem) (nchunks : Int32) (calculatehash : Option (List Str)) : Run Mem := do
  let (root, m) := initialiseTree m
  let depth ← treeDepth nchunks
  recursiveTree fuel m depth 1 (some root) 0 calculatehash

/-- Whatever the chunks' computed hashes, a perfect tree with `nchunks` leaves and `nhashes` inner nodes
    is built. -/
def BuildsPerfectTree (obj : BpkgObj) : Prop :=
  ∀ (m : Mem) (hashes : List Str), hashes.length = obj.nchunks.toInt.toNat →
    ∃ k m' node, Settles (fun fuel => growTree fuel m obj.nchunks (some hashes)) (.ok m') ∧
      PerfectTree k m' m.nodes.next node ∧
      obj.nchunks.toInt = (2 ^ k : Nat) ∧ obj.nhashes.toInt = (2 ^ k - 1 : Nat)

theorem growTree_eq {nchunks : Int32} {n : Nat} (h : nchunks.toInt = n) (hn : 1 ≤ n) (fuel : Nat)
    (m : Mem) (hash : Option (List Str)) :
    growTree fuel m nchunks hash = recursiveTree fuel (initialiseTree m).2 ((Nat.log 2 n : Int) + 1) 1
      (some (initialiseTree m).1) 0 hash := by
  show (treeDepth nchunks >>= fun depth => _) = _
  rw [treeDepth_ok h hn, Run.ok_bind]
  rfl

theorem Grown.perfectTree {k root : Nat} {comp : Nat → Str} {m m' : Mem} {parent : Ptr}
    {node : Nat → Nat} (h : Grown k comp m m' 1 root parent node) : PerfectTree k m' root node where
  root := h.self
  distinct := by
    intro v w hv hw
    exact h.inj v w hv hw (above_root hv.1) (above_root hw.1)
  inner := by
    intro w hw
    obtain ⟨nd, hnd, hb⟩ := h.built w hw.isNode (above_root hw.1)
    exact ⟨nd, hnd, hb.inner hw⟩
  leaf := by
    intro i hi
    have hpow := Nat.pow_succ 2 k
    have hleaf : IsLeaf k (2 ^ k + i) := ⟨by omega, by omega⟩
    obtain ⟨nd, hnd, hb⟩ := h.built _ hleaf.isNode (above_root hleaf.isNode.1)
    have hpos := hb.leaf hleaf
    rw [Nat.add_sub_cancel_left] at hpos
    exact ⟨nd, hnd, hpos⟩

/-- A finished tree is perfect. -/
theorem Built.perfectTree {k root : Nat} {comp exp : Nat → Str} {m₀ m : Mem} {node : Nat → Nat}
    (h : Built k comp exp m₀ m root node) : PerfectTree k m root node where
  root := h.linked.root
  distinct := h.inj
  inner := by
    intro w hw
    obtain ⟨nd, hnd, hb, _⟩ := h.nodes w hw.isNode
    exact ⟨nd, hnd, hb.inner hw⟩
  leaf := by
    intro i hi
    have hpow := Nat.pow_succ 2 k
    have hleaf : IsLeaf k (2 ^ k + i) := ⟨by omega, by omega⟩
    obtain ⟨nd, hnd, hb, _⟩ := h.nodes _ hleaf.isNode
    have hpos := hb.leaf hleaf
    rw [Nat.add_sub_cancel_left] at hpos
    exact ⟨nd, hnd, hpos⟩

/-- The hashes that building the tree computes: the given one in each leaf, and a Merkle labelling
    above. -/
theorem Grown.hashes {k root : Nat} {hashes : List Str} {m m' : Mem} {parent : Ptr} {node : Nat → Nat}
    (h : Grown k (computed k hashes) m m' 1 root parent node) (hlen : hashes.length = 2 ^ k)
    (h64 : ∀ x ∈ hashes, x.length = 64) :
    (∀ p, p < 2 ^ k → m'.computedAt root (2 ^ k + p) = hashes[p]?) ∧
      Consistent k (m'.computedAt root) := by
  have hcomp : ∀ n, IsNode k n → m'.computedAt root n = some (computed k hashes n) := by
    intro n hn
    obtain ⟨nd, hnd, hb⟩ := h.built n hn (above_root hn.1)
    rw [h.linked.computedAt hn hnd, hb.computed]
  constructor
  · intro p hp
    have hpow := Nat.pow_succ 2 k
    have hi : p < hashes.length := by omega
    have hleaf : IsLeaf k (2 ^ k + p) := ⟨by omega, by omega⟩
    have hx : (hashes[p]).length = 64 := h64 _ (List.getElem_mem hi)
    rw [hcomp _ hleaf.isNode, computed_leaf hleaf, leafHash, Nat.add_sub_cancel_left,
      List.getD_eq_getElem _ _ hi, List.take_of_length_le (Nat.le_of_eq hx),
      List.getElem?_eq_getElem hi]
  · intro n hn
    refine ⟨_, _, hcomp _ hn.left, hcomp _ hn.right, ?_⟩
    rw [hcomp n hn.isNode, computed_labels_append (Nat.le_of_eq hlen.symm) h64 n hn]

/-- **The tree over `2 ^ k` chunk hashes.** Below a new root a perfect tree is built; the leaf at the end
    of the path with the binary value `p` carries the hash `p` and the position `p`, and every inner
    node, the root included, the hash of its children's hashes. -/
theorem recursiveTree_perfect {k : Nat} {hashes : List Str} (hk : 1 ≤ k) (hk31 : k ≤ 31)
    (hlen : hashes.length = 2 ^ k) (h64 : ∀ x ∈ hashes, x.length = 64) (m : Mem) :
    ∃ m' node,
      Settles (fun fuel => recursiveTree fuel (initialiseTree m).2 (k + 1) 1
        (some (initialiseTree m).1) 0 (some hashes)) (.ok m') ∧
      PerfectTree k m' (initialiseTree m).1 node ∧
      (∀ n, IsNode k n → m'.nodeAt (initialiseTree m).1 n = some (node n)) ∧
      (∀ p, p < 2 ^ k → m'.computedAt (initialiseTree m).1 (2 ^ k + p) = hashes[p]?) ∧
      Consistent k (m'.computedAt (initialiseTree m).1) := by
  obtain ⟨m', node, hg, hrun⟩ := recursiveTree_root m hk hk31 (Nat.le_of_eq hlen.symm)
  obtain ⟨hleaves, hinner⟩ := hg.hashes hlen h64
  exact ⟨m', node, hrun, hg.perfectTree, fun n hn => hg.linked.nodeAt hn, hleaves, hinner⟩

/-- Two leaves. -/
theorem recursiveTree_perfect_two :
    ∃ m' node,
      Settles (fun fuel => recursiveTree fuel (initialiseTree Mem.empty).2 ((1 : Nat) + 1) 1
        (some (initialiseTree Mem.empty).1) 0
        (some [List.replicate 64 97, List.replicate 64 98])) (.ok m') ∧
      PerfectTree 1 m' (initialiseTree Mem.empty).1 node ∧
      (∀ n, IsNode 1 n → m'.nodeAt (initialiseTree Mem.empty).1 n = some (node n)) ∧
      (∀ p, p < 2 ^ 1 → m'.computedAt (initialiseTree Mem.empty).1 (2 ^ 1 + p)
        = [List.replicate 64 97, List.replicate 64 98][p]?) ∧
      Consistent 1 (m'.computedAt (initialiseTree Mem.empty).1) :=
  recursiveTree_perfect (Nat.le_refl 1) (by decide) rfl (by decide) Mem.empty

/-- The leaves of a tree of height 32 have no positions. -/
theorem recursiveTree_height32 :
    ∃ hashes : List Str, hashes.length = 2 ^ 32 ∧ (∀ x ∈ hashes, x.length = 64) ∧
      ∀ m m', ¬ Settles (fun fuel => recursiveTree fuel (initialiseTree m).2 ((32 : Nat) + 1) 1
        (some (initialiseTree m).1) 0 (some hashes)) (.ok m') := by
  refine ⟨List.replicate (2 ^ 32) (List.replicate 64 48), List.length_replicate, ?_, ?_⟩
  · intro x hx
    rw [List.eq_of_mem_replicate hx]
    exact List.length_replicate
  · rintro m m' ⟨n, hn⟩
    have hle : 32 ≤ 31 := height_le_of_ok (hn n (Nat.le_refl n))
    omega

/-- A single chunk: the tree is never built. -/
theorem not_settles_single {nchunks : Int32} (h : nchunks.toInt = (1 : Nat)) (m m' : Mem) (x : Str) :
    ¬ Settles (fun fuel => growTree fuel m nchunks (some [x])) (.ok m') := by
  rintro ⟨n, hn⟩
  have hrun : growTree (n + 1) m nchunks (some [x]) = .ok m' := hn (n + 1) (by omega)
  rw [growTree_eq h (Nat.le_refl 1), Nat.log_one_right] at hrun
  have hsingle := @recursiveTree_single m [x] (Nat.le_refl 1) n
  have hdepth : ((0 : Nat) : Int) + 1 = 1 := rfl
  rw [hdepth, hsingle] at hrun
  cases hrun

/-- **The shape of the tree depends on the counts alone.** -/
theorem buildsPerfectTree_iff (obj : BpkgObj) :
    BuildsPerfectTree obj ↔ ∃ k, 1 ≤ k ∧ obj.nchunks.toInt = (2 ^ k : Nat) ∧
      obj.nhashes.toInt = (2 ^ k - 1 : Nat) := by
  constructor
  · intro h
    obtain ⟨k, m', node, hrun, _, hchunks, hhashes⟩ :=
      h Mem.empty (List.replicate obj.nchunks.toInt.toNat []) List.length_replicate
    refine ⟨k, ?_, hchunks, hhashes⟩
    by_contra hk
    obtain rfl : k = 0 := by omega
    have hone : obj.nchunks.toInt = (1 : Nat) := hchunks
    rw [hone] at hrun
    exact not_settles_single hone _ _ _ hrun
  · rintro ⟨k, hk, hchunks, hhashes⟩ m hashes hlen
    have hlog : Nat.log 2 (2 ^ k) = k := Nat.log_pow (by omega) k
    have hk31 : k ≤ 31 := hlog ▸ log_nchunks_le hchunks
    rw [hchunks, Int.toNat_natCast] at hlen
    obtain ⟨m', node, hg, hrun⟩ := recursiveTree_root m hk hk31 (Nat.le_of_eq hlen.symm)
    refine ⟨k, m', node, ?_, hg.perfectTree, hchunks, hhashes⟩
    have hsame : ∀ fuel, growTree fuel m obj.nchunks (some hashes) = _ :=
      fun fuel => growTree_eq hchunks Nat.one_le_two_pow fuel m (some hashes)
    simp only [hsame, hlog]
    exact hrun

/-- **An accepted file gets a perfect tree if and only if** its counts, as its lines give them or, where
    these give none, as the memory happens to hold them, are `2 ^ k - 1` hashes and `2 ^ k` chunks with
    `k ≥ 1`. -/
theorem loaded_tree_perfect_iff {junk : Junk} {contents : Str} {obj : BpkgObj}
    (h : bpkgLoad junk (some contents) = .ok obj) :
    BuildsPerfectTree obj ↔ ∃ k, 1 ≤ k ∧
      (nchunksOf junk (linesOf bufferSize contents)).toInt = (2 ^ k : Nat) ∧
      (nhashesOf junk (linesOf bufferSize contents)).toInt = (2 ^ k - 1 : Nat) := by
  rw [bpkgLoad_eq] at h
  have hcounted := loadLines_counted h
  rw [buildsPerfectTree_iff, hcounted.nchunks, hcounted.nhashes]

/-- Two chunks, one hash. -/
theorem loaded_tree_perfect_iff_two :
    BuildsPerfectTree (Package.uniform 1 (by decide)).obj := by
  have hload := Package.uniform_load default 1 (by decide)
  refine (loaded_tree_perfect_iff hload).mpr ⟨1, Nat.le_refl 1, ?_⟩
  rw [bpkgLoad_eq] at hload
  have hcounted := loadLines_counted hload
  rw [← hcounted.nchunks, ← hcounted.nhashes]
  decide

/-- A file with a single chunk is accepted, and its root's missing parent is read. -/
theorem oneChunk_no_tree : ¬ ∀ (junk : Junk) (contents : Str) (obj : BpkgObj),
    bpkgLoad junk (some contents) = .ok obj → BuildsPerfectTree obj := by
  intro h
  have htree := h default _ _ (Package.uniform_load default 0 (by decide))
  obtain ⟨k, hk, hchunks, _⟩ := (buildsPerfectTree_iff _).mp htree
  have hone : ((2 ^ k : Nat) : Int) = 1 := hchunks.symm
  have hpow : 2 ^ 1 ≤ 2 ^ k := Nat.pow_le_pow_right (by omega) hk
  omega

end Btide
