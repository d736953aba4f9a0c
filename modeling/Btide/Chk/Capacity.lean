import Btide.Chk.HashesOf

/-!
# `Chk.Capacity` — packages whose number of chunks is no power of two

With `n` chunks the tree has `2 ^ k` leaves, where `k` is the logarithm of `n` rounded down, so it may
have fewer nodes than the package has entries. The bounds of all arrays rest on two inequalities:
`2 ^ k ≤ n` for the chunk hashes and the results of the queries, and `2 ^ (k + 1) - 1 ≤ 2 * n - 1` for
the entries that are dealt out. A read or a store outside an array, and a position that does not fit an
`int`, would not let the functions settle on a value.
-/

namespace Btide

open LevelOrder

/-- A query with at most `n` results. -/
def StoresAtMost (n : Nat) (query : Nat → Run BpkgQuery) : Prop :=
  ∃ qry, Settles query (.ok qry) ∧ qry.len ≤ n

theorem StoresAtMost.mono {query : Nat → Run BpkgQuery} {k n : Nat} (hk : k ≤ n)
    (h : StoresAtMost k query) : StoresAtMost n query := by
  obtain ⟨qry, hrun, hlen⟩ := h
  exact ⟨qry, hrun, Nat.le_trans hlen hk⟩

/-- The three queries, whatever hash the third one is asked for. -/
structure QueriesFit (n : Nat) (m : Mem) (bpkg : BpkgObj) : Prop where
  completedChunks : StoresAtMost n fun fuel => bpkgGetCompletedChunks fuel m bpkg
  minCompletedHashes : StoresAtMost n fun fuel => bpkgGetMinCompletedHashes fuel m bpkg
  allChunkHashesFromHash :
    ∀ hash, StoresAtMost n fun fuel => bpkgGetAllChunkHashesFromHash fuel m bpkg hash

section Queries

variable {k n root : Nat} {comp exp : Nat → Str} {m : Mem} {node : Nat → Nat} {bpkg : BpkgObj}

theorem completedChunks_fit (h : Labelled k comp exp m root node) (htree : bpkg.tree = some root)
    (hcap : (2 ^ k : Nat) ≤ bpkg.nchunks.toInt) :
    StoresAtMost (2 ^ k) fun fuel => bpkgGetCompletedChunks fuel m bpkg := by
  refine ⟨_, bpkgGetCompletedChunks_settles bpkg h htree hcap, ?_⟩
  have hle := List.length_filter_le (fun n => decide (Agree comp exp n)) (List.range' (2 ^ k) (2 ^ k))
  rw [List.length_range'] at hle
  simpa [BpkgQuery.len, collected] using hle

theorem minCompletedHashes_fit (h : Labelled k comp exp m root node) (htree : bpkg.tree = some root)
    (hcap : (2 ^ k : Nat) ≤ bpkg.nchunks.toInt) :
    StoresAtMost (2 ^ k) fun fuel => bpkgGetMinCompletedHashes fuel m bpkg := by
  refine ⟨_, bpkgGetMinCompletedHashes_settles bpkg h htree hcap, ?_⟩
  rw [BpkgQuery.len, List.length_map]
  exact topmost_length_le

theorem chunkHashesFromHash_fit (h : Labelled k comp exp m root node) (htree : bpkg.tree = some root)
    (hcap : (2 ^ k : Nat) ≤ bpkg.nchunks.toInt) (hash : Str) :
    StoresAtMost (2 ^ k) fun fuel => bpkgGetAllChunkHashesFromHash fuel m bpkg hash := by
  by_cases hnone : ∀ w, IsNode k w → (exp w).take 64 ≠ hash.take 64
  · exact ⟨_, bpkgGetAllChunkHashesFromHash_none bpkg h htree hnone, Nat.zero_le _⟩
  · push Not at hnone
    obtain ⟨v, hv, he⟩ := hnone
    obtain ⟨u, hu, -, hmatch, hfirst⟩ := exists_first exp hv
    rw [he] at hmatch hfirst
    refine ⟨_, bpkgGetAllChunkHashesFromHash_settles bpkg h htree hcap hu hmatch hfirst, ?_⟩
    rw [BpkgQuery.len, List.length_map]
    -- the leaves below a node are some of the leaves
    have hle := List.length_filter_le (fun n => decide (Above u n)) (List.range' (2 ^ k) (2 ^ k))
    rwa [List.length_range'] at hle

/-- On a tree with `2 ^ k` leaves, whatever the hashes of its nodes. -/
theorem queriesFit (h : Labelled k comp exp m root node) (htree : bpkg.tree = some root)
    (hcap : (2 ^ k : Nat) ≤ bpkg.nchunks.toInt) (hn : 2 ^ k ≤ n) : QueriesFit n m bpkg where
  completedChunks := (completedChunks_fit h htree hcap).mono hn
  minCompletedHashes := (minCompletedHashes_fit h htree hcap).mono hn
  allChunkHashesFromHash := fun hash => (chunkHashesFromHash_fit h htree hcap hash).mono hn

end Queries

/-- **All arrays are large enough**, for every number of chunks from two on: the tree is built from the
    `n` chunk hashes, the `n - 1` hashes and the `n` chunks of the package without reading outside them,
    and on a tree of this shape with any hashes at its nodes the three queries store at most `n` results,
    which is what they allocate. -/
theorem arrays_suffice {bpkg : BpkgObj} {hs : List Str} {cs : List ChunkInfo} {hashes : List Str} {n : Nat}
    (m : Mem) (hlists : bpkg.Lists hs cs) (hn : 2 ≤ n) (hcs : cs.length = n) (hhs : hs.length = n - 1)
    (hhashes : hashes.length = n) :
    ∃ m' node,
      Settles (fun fuel => buildTree fuel m bpkg (.ok (some hashes)))
        (.ok (m', { bpkg with tree := some m.nodes.next })) ∧
      (∃ comp exp, Labelled (Nat.log 2 n) comp exp m' m.nodes.next node) ∧
      ∀ comp exp m'', Labelled (Nat.log 2 n) comp exp m'' m.nodes.next node →
        QueriesFit n m'' { bpkg with tree := some m.nodes.next } := by
  have hpow : 2 ^ Nat.log 2 n ≤ n := Nat.pow_log_le_self 2 (by omega)
  have hlog : 1 ≤ Nat.log 2 n := Nat.log_pos (by decide) hn
  have henough : 2 ^ (Nat.log 2 n + 1) - 1 ≤ (listed hs cs).length := by
    rw [listed, List.length_append, List.length_map, hcs, hhs, Nat.pow_succ]
    omega
  obtain ⟨m', node, hbuilt, hrun⟩ := buildTree_built m hlists (by rw [hcs]) hlog
    (hpow.trans (Nat.le_of_eq hhashes.symm)) henough
  refine ⟨m', node, hrun, ⟨_, _, hbuilt.labelled⟩, fun comp exp m'' h => ?_⟩
  have hcap : (2 ^ Nat.log 2 n : Nat)
      ≤ ({ bpkg with tree := some m.nodes.next } : BpkgObj).nchunks.toInt := by
    show (2 ^ Nat.log 2 n : Nat) ≤ bpkg.nchunks.toInt
    rw [hlists.nchunks, hcs]
    exact Int.ofNat_le.mpr hpow
  exact queriesFit h rfl hcap hpow

/-- Three chunks: the tree has three nodes, and the package five entries. -/
def threeChunks : BpkgObj where
  identifier := bytes "ab"
  filename := bytes "three.data"
  size := 3
  nhashes := 2
  hashes := some [bytes "r", bytes "s"]
  nchunks := 3
  chunks := some [⟨bytes "x", 0, 1⟩, ⟨bytes "y", 1, 1⟩, ⟨bytes "z", 2, 1⟩]
  tree := none

theorem arrays_suffice_three :
    ∃ m', Settles (fun fuel => buildTree fuel Mem.empty threeChunks
        (.ok (some [bytes "x", bytes "y", bytes "z"])))
      (.ok (m', { threeChunks with tree := some 0 })) ∧
      QueriesFit 3 m' { threeChunks with tree := some 0 } := by
  have hlists : threeChunks.Lists [bytes "r", bytes "s"]
      [⟨bytes "x", 0, 1⟩, ⟨bytes "y", 1, 1⟩, ⟨bytes "z", 2, 1⟩] := ⟨rfl, rfl, rfl, rfl⟩
  obtain ⟨m', node, hrun, ⟨_, _, hlabelled⟩, hfit⟩ :=
    @arrays_suffice _ _ _ [bytes "x", bytes "y", bytes "z"] 3 Mem.empty hlists (by decide) rfl rfl rfl
  exact ⟨m', hrun, hfit _ _ m' hlabelled⟩

end Btide
