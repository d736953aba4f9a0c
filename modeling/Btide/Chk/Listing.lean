import Btide.Chk.Load
import Btide.Tree.HashChunk
import Btide.Tree.Match

/-!
# `Chk.Listing` — the hashes of a package and of its tree

`bpkg_get_all_hashes` lists the hashes of a package without its tree. On a perfect tree its list is the
sequence of the expected hashes in level order (`allHashes_level_order`): the breadth-first dealing
passes from the hashes to the chunks at the boundary between the inner nodes and the leaves, where the
depth-first numbering of the leaves starts at position 0.

`bpkg_get_all_chunk_hashes_from_hash` answers with the chunks below the first node that has the given
hash. In the package's own numbering these are consecutive (`chunkHashes_from_hash`): the node `j` of the
level `d` covers the `2 ^ (k - d)` chunks from number `j * 2 ^ (k - d)` on.
-/

namespace Btide

open LevelOrder

/-! ## `bpkg_get_all_hashes` -/

def SHA256_HEX_LEN : Nat := 64

/-- `strcpy` of `hashes[i]` into a new array. -/
def copyHash (bpkg : BpkgObj) (i : Nat) : Run Str := do
  let h ← index bpkg.hashes i
  storeStr (SHA256_HEX_LEN + 1) h

/-- `strncpy` of the hash of `chunks[i]` into a new array, the element `count` of the results. -/
def copyChunkHash (bpkg : BpkgObj) (i : Nat) : Run Str := do
  let count ← cInt (bpkg.nhashes.toInt + i)
  let c ← index bpkg.chunks i
  if 0 ≤ count ∧ count < bpkg.nhashes.toInt + bpkg.nchunks.toInt then .ok (c.hashvalue.take 64)
  else .error .outOfBounds

def bpkgGetAllHashes (bpkg : BpkgObj) : Run BpkgQuery := do
  let _ ← cInt (bpkg.nhashes.toInt + bpkg.nchunks.toInt)
  let hashes ← (List.range bpkg.nhashes.toInt.toNat).mapM (copyHash bpkg)
  let chunkhashes ← (List.range bpkg.nchunks.toInt.toNat).mapM (copyChunkHash bpkg)
  .ok { hashes := hashes ++ chunkhashes, nodes := [] }

/-- The strings fit the arrays that hold them. -/
structure HashesFit (hs : List Str) (cs : List ChunkInfo) : Prop where
  hashes : ∀ h ∈ hs, h.length ≤ MAX_HASH
  chunks : ∀ c ∈ cs, c.hashvalue.length ≤ MAX_HASH

section AllHashes

variable {k : Nat} {bpkg : BpkgObj} {hs : List Str} {cs : List ChunkInfo}

/-- The counters of a package with a perfect tree add up to an `int`. -/
theorem BpkgObj.Perfect.total_le (h : bpkg.Perfect k hs cs) :
    (hs.length + cs.length : Int) ≤ INT_MAX := by
  have hmax := toInt_le_intMax bpkg.nchunks
  have hcs := h.chunks_length
  have hhs := h.hashes_length
  have hnc := h.nchunks
  unfold INT_MAX at *
  have hk : k ≤ 30 := by
    by_contra hk
    have hpow : 2 ^ 31 ≤ 2 ^ k := Nat.pow_le_pow_right (by omega) (by omega)
    omega
  have hpow : 2 ^ k ≤ 2 ^ 30 := Nat.pow_le_pow_right (by omega) hk
  omega

/-- The hashes can be copied, and the counters add up to an `int`. The hashes of the chunks are cut to the
    size of the copies. -/
structure Listable (hs : List Str) (cs : List ChunkInfo) : Prop where
  hashes : ∀ h ∈ hs, h.length ≤ MAX_HASH
  total : (hs.length + cs.length : Int) ≤ INT_MAX

theorem sumOfCounters (h : bpkg.Lists hs cs) :
    cInt (bpkg.nhashes.toInt + bpkg.nchunks.toInt) = cInt (hs.length + cs.length : Int) := by
  rw [h.nhashes, h.nchunks]

theorem copyHash_lists (h : bpkg.Lists hs cs) {i : Nat} (hi : i < hs.length) :
    copyHash bpkg i = storeStr (SHA256_HEX_LEN + 1) hs[i] := by
  rw [copyHash, h.hashes, index_ok (List.getElem?_eq_getElem hi), Run.ok_bind]

theorem copyChunkHash_lists (h : bpkg.Lists hs cs) (htotal : (hs.length + cs.length : Int) ≤ INT_MAX)
    {i : Nat} (hi : i < cs.length) : copyChunkHash bpkg i = .ok ((cs[i].hashvalue).take 64) := by
  -- the chunks come behind the hashes
  have hcount : cInt (bpkg.nhashes.toInt + i) = .ok (bpkg.nhashes.toInt + i) := by
    rw [h.nhashes]
    exact cInt_ok (by unfold INT_MIN; omega) (by omega)
  have hroom : 0 ≤ bpkg.nhashes.toInt + i ∧
      bpkg.nhashes.toInt + i < bpkg.nhashes.toInt + bpkg.nchunks.toInt := by
    rw [h.nhashes, h.nchunks]
    exact ⟨by omega, by omega⟩
  rw [copyChunkHash, hcount, Run.ok_bind, h.chunks, index_ok (List.getElem?_eq_getElem hi),
    Run.ok_bind, if_pos hroom]

/-- The copies of a package that can be listed. -/
theorem bpkgGetAllHashes_lists (h : bpkg.Lists hs cs) (hlist : Listable hs cs) :
    bpkgGetAllHashes bpkg
      = .ok { hashes := hs ++ cs.map fun c => c.hashvalue.take 64, nodes := [] } := by
  have hsum : cInt (hs.length + cs.length : Int) = .ok (hs.length + cs.length : Int) :=
    cInt_ok (by unfold INT_MIN; omega) hlist.total
  have hhashes : ∀ i (hi : i < hs.length), copyHash bpkg i = .ok hs[i] := by
    intro i hi
    rw [copyHash_lists h hi]
    exact storeStr_ok (Nat.lt_succ_of_le (hlist.hashes _ (List.getElem_mem hi)))
  have hchunks : ∀ i (hi : i < cs.length), copyChunkHash bpkg i = .ok ((cs[i].hashvalue).take 64) :=
    fun i hi => copyChunkHash_lists h hlist.total hi
  have hrun₁ := mapM_range (g := id) hs hhashes
  have hrun₂ := mapM_range (g := fun c : ChunkInfo => c.hashvalue.take 64) cs hchunks
  rw [bpkgGetAllHashes, sumOfCounters h, hsum, Run.ok_bind, h.nhashes, Int.toNat_natCast, hrun₁,
    Run.ok_bind, h.nchunks, Int.toNat_natCast, hrun₂, Run.ok_bind, List.map_id]

/-- Only such a package is copied. -/
theorem listable_of_bpkgGetAllHashes {qry : BpkgQuery} (h : bpkg.Lists hs cs)
    (hrun : bpkgGetAllHashes bpkg = .ok qry) : Listable hs cs := by
  obtain ⟨total, htotal, hrun⟩ := Run.bind_eq_ok.mp hrun
  rw [sumOfCounters h] at htotal
  obtain ⟨copies, hcopies, _⟩ := Run.bind_eq_ok.mp hrun
  refine ⟨fun x hx => ?_, (cInt_eq_ok.mp htotal).2.2⟩
  obtain ⟨i, hi, rfl⟩ := List.getElem_of_mem hx
  have hmem : i ∈ List.range bpkg.nhashes.toInt.toNat := by
    rw [h.nhashes, Int.toNat_natCast]
    exact List.mem_range.mpr hi
  obtain ⟨copy, hcopy⟩ := (mapM_eq_ok hcopies).2 i hmem
  rw [copyHash_lists h hi] at hcopy
  exact Nat.le_of_lt_succ (storeStr_eq_ok hcopy).2

theorem bpkgGetAllHashes_ok (h : bpkg.Perfect k hs cs) (hfit : HashesFit hs cs) :
    bpkgGetAllHashes bpkg = .ok { hashes := listed hs cs, nodes := [] } := by
  have hrun := bpkgGetAllHashes_lists ⟨h.hashes, h.chunks, h.nhashes, h.nchunks⟩
    ⟨hfit.hashes, h.total_le⟩
  have hcut : cs.map (fun c => c.hashvalue.take 64) = cs.map ChunkInfo.hashvalue :=
    List.map_congr_left fun c hc => List.take_of_length_le (hfit.chunks c hc)
  rw [hcut] at hrun
  exact hrun

/-- The expected hashes in level order are the listed ones. -/
theorem BpkgObj.Perfect.map_expected (h : bpkg.Perfect k hs cs) (hfit : HashesFit hs cs) :
    (List.range' 1 (2 ^ (k + 1) - 1)).map (expected hs cs) = listed hs cs := by
  have hlen := h.listed_length
  refine List.ext_getElem (by simp [hlen]) fun i hi hi' => ?_
  have hshort : (listed hs cs)[i].length ≤ 64 := by
    have hmem : (listed hs cs)[i] ∈ hs ++ cs.map ChunkInfo.hashvalue := List.getElem_mem hi'
    cases List.mem_append.mp hmem with
    | inl hmem => exact hfit.hashes _ hmem
    | inr hmem =>
        obtain ⟨c, hc, heq⟩ := List.mem_map.mp hmem
        exact heq ▸ hfit.chunks c hc
  rw [List.getElem_map, List.getElem_range', Nat.one_mul, expected, Nat.add_sub_cancel_left,
    List.getD_eq_getElem _ _ hi', List.take_of_length_le hshort]

/-- What the leaf at the position `p` holds. -/
theorem Built.leaf_expected {hashes : List Str} {m₀ m : Mem} {root : Nat} {node : Nat → Nat}
    (hb : Built k (computed k hashes) (expected hs cs) m₀ m root node) (h : bpkg.Perfect k hs cs)
    (hfit : HashesFit hs cs) {p : Nat} (hp : p < 2 ^ k) :
    ∃ leaf nd c, m.nodeAt root (2 ^ k + p) = some leaf ∧ m.nodes.cells leaf = some nd ∧
      nd.isLeaf = 1 ∧ nd.position = some (p : Int) ∧ cs[p]? = some c ∧
      nd.expectedHash = some c.hashvalue := by
  have hpow := Nat.pow_succ 2 k
  have hi : p < cs.length := by rw [h.chunks_length]; exact hp
  have hleaf : IsLeaf k (2 ^ k + p) := ⟨by omega, by omega⟩
  have hlen : (cs[p].hashvalue).length ≤ 64 := hfit.chunks _ (List.getElem_mem hi)
  obtain ⟨nd, hnd, hn, he⟩ := hb.nodes _ hleaf.isNode
  obtain ⟨_, _, hflag, hpos⟩ := hn.leaf hleaf
  rw [Nat.add_sub_cancel_left] at hpos
  rw [h.expected_leaf hi, List.take_of_length_le hlen] at he
  exact ⟨_, nd, cs[p], hb.nodeAt hleaf.isNode, hnd, hflag, hpos, List.getElem?_eq_getElem hi, he⟩

/-- What an inner node holds. -/
theorem BpkgObj.Perfect.expected_inner (h : bpkg.Perfect k hs cs) (hfit : HashesFit hs cs) {n : Nat}
    (hn : IsInner k n) : hs[n - 1]? = some (expected hs cs n) := by
  have hlen := h.hashes_length
  have h1 := hn.1
  have h2 := hn.2
  have hi : n - 1 < hs.length := by omega
  have hshort : (hs[n - 1]).length ≤ 64 := hfit.hashes _ (List.getElem_mem hi)
  rw [expected, listed, List.getD_append _ _ _ _ hi, List.getD_eq_getElem _ _ hi,
    List.take_of_length_le hshort, List.getElem?_eq_getElem hi]

/-- **The expected hashes in level order are the listed hashes.** The inner nodes have the package's
    hashes, and the leaf at the position `p` has the hash of the chunk `p`. -/
theorem allHashes_level_order {hashes : List Str} (h : bpkg.Perfect k hs cs) (hfit : HashesFit hs cs)
    (hlen : hashes.length = 2 ^ k) (m : Mem) :
    ∃ m' root qry,
      Settles (fun fuel => buildTree fuel m bpkg (.ok (some hashes)))
        (.ok (m', { bpkg with tree := some root })) ∧
      bpkgGetAllHashes { bpkg with tree := some root } = .ok qry ∧
      qry.hashes = hs ++ cs.map ChunkInfo.hashvalue ∧
      (List.range' 1 (2 ^ (k + 1) - 1)).map (m'.expectedAt root) = qry.hashes.map some ∧
      (∀ n, IsInner k n → ∃ x, hs[n - 1]? = some x ∧ m'.expectedAt root n = some x) ∧
      ∀ p, p < 2 ^ k → ∃ leaf nd c, m'.nodeAt root (2 ^ k + p) = some leaf ∧
        m'.nodes.cells leaf = some nd ∧ nd.isLeaf = 1 ∧ nd.position = some (p : Int) ∧
        cs[p]? = some c ∧ nd.expectedHash = some c.hashvalue := by
  obtain ⟨m', node, hb, hbuild⟩ := h.built hlen m
  have hperfect : { bpkg with tree := some m.nodes.next : BpkgObj }.Perfect k hs cs :=
    { hashes := h.hashes, chunks := h.chunks, nhashes := h.nhashes, nchunks := h.nchunks,
      height := h.height, chunks_length := h.chunks_length, hashes_length := h.hashes_length }
  refine ⟨m', _, _, hbuild, bpkgGetAllHashes_ok hperfect hfit, rfl, ?_, ?_, ?_⟩
  · rw [← h.map_expected hfit, List.map_map]
    refine List.map_congr_left fun n hn => ?_
    exact hb.expectedAt (mem_range_isNode hn)
  · intro n hn
    exact ⟨_, h.expected_inner hfit hn, hb.expectedAt hn.isNode⟩
  · intro p hp
    exact hb.leaf_expected h hfit hp

end AllHashes

/-- Three nodes. -/
theorem allHashes_level_order_two :
    ∃ m' root qry,
      Settles (fun fuel => buildTree fuel Mem.empty (twoChunks (bytes "aa") (bytes "bb") (bytes "cc"))
        (.ok (some [bytes "dd", bytes "ee"])))
        (.ok (m', { twoChunks (bytes "aa") (bytes "bb") (bytes "cc") with tree := some root })) ∧
      bpkgGetAllHashes { twoChunks (bytes "aa") (bytes "bb") (bytes "cc") with tree := some root }
        = .ok qry ∧
      qry.hashes = [bytes "aa"] ++ ([⟨bytes "bb", 0, 1⟩, ⟨bytes "cc", 1, 1⟩] : List ChunkInfo).map
        ChunkInfo.hashvalue ∧
      (List.range' 1 (2 ^ (1 + 1) - 1)).map (m'.expectedAt root) = qry.hashes.map some ∧
      (∀ n, IsInner 1 n → ∃ x, [bytes "aa"][n - 1]? = some x ∧ m'.expectedAt root n = some x) ∧
      ∀ p, p < 2 ^ 1 → ∃ leaf nd c, m'.nodeAt root (2 ^ 1 + p) = some leaf ∧
        m'.nodes.cells leaf = some nd ∧ nd.isLeaf = 1 ∧ nd.position = some (p : Int) ∧
        ([⟨bytes "bb", 0, 1⟩, ⟨bytes "cc", 1, 1⟩] : List ChunkInfo)[p]? = some c ∧
        nd.expectedHash = some c.hashvalue :=
  allHashes_level_order (twoChunks_perfect _ _ _) ⟨by decide, by decide⟩ rfl Mem.empty

/-! ## The chunks below a hash -/

/-- A query string of 64 characters matches a node just when it is the node's hash. -/
theorem expected_take_eq_iff {hs : List Str} {cs : List ChunkInfo} {n : Nat} {hash : Str}
    (h64 : hash.length = 64) :
    (expected hs cs n).take 64 = hash.take 64 ↔ expected hs cs n = hash := by
  rw [List.take_of_length_le expected_length_le, List.take_of_length_le (Nat.le_of_eq h64)]

section ChunkHashes

variable {k : Nat} {bpkg : BpkgObj} {hs : List Str} {cs : List ChunkInfo}

/-- The expected hashes of consecutive leaves. -/
theorem BpkgObj.Perfect.map_leaves (h : bpkg.Perfect k hs cs) (hfit : HashesFit hs cs) {a n : Nat}
    (ha : a + n ≤ 2 ^ k) :
    (List.range' (2 ^ k + a) n).map (fun w => (expected hs cs w).take 64)
      = ((cs.map ChunkInfo.hashvalue).drop a).take n := by
  have hcs := h.chunks_length
  refine List.ext_getElem (by simp; omega) fun i hi hi' => ?_
  have hin : i < n := by simpa using hi
  have hidx : a + i < cs.length := by omega
  have hleaf := h.expected_leaf hidx
  have hshort : (cs[a + i].hashvalue).length ≤ 64 := hfit.chunks _ (List.getElem_mem hidx)
  rw [← Nat.add_assoc] at hleaf
  simp only [List.getElem_map, List.getElem_range', Nat.one_mul, List.getElem_take,
    List.getElem_drop]
  rw [List.take_of_length_le expected_length_le, hleaf, List.take_of_length_le hshort]

/-- The leaves below the node `j` of the level `d`. -/
theorem leavesUnder_level {d j : Nat} (hd : d ≤ k) (hj : j < 2 ^ d) :
    IsNode k (2 ^ d + j) ∧
      leavesUnder k (2 ^ d + j) = List.range' (2 ^ k + j * 2 ^ (k - d)) (2 ^ (k - d)) := by
  have hpow := Nat.pow_succ 2 d
  have hle : 2 ^ (d + 1) ≤ 2 ^ (k + 1) := Nat.pow_le_pow_right (by omega) (by omega)
  have hpos := Nat.two_pow_pos d
  have hnode : IsNode k (2 ^ d + j) := ⟨by omega, by omega⟩
  have hlog : Nat.log 2 (2 ^ d + j) = d := Nat.log_eq_of_pow_le_of_lt_pow (by omega) (by omega)
  have hk : 2 ^ d * 2 ^ (k - d) = 2 ^ k := by rw [← Nat.pow_add, Nat.add_sub_cancel' hd]
  refine ⟨hnode, ?_⟩
  rw [leavesUnder_eq_range' hnode, firstLeaf, hlog, Nat.add_mul, hk]

/-- **The chunks below a hash.** A hash that no node has gives nothing; otherwise, with the node `j` of the
    level `d` the first in level order to have the hash, the chunks below it are returned in order:
    `2 ^ (k - d)` of them from number `j * 2 ^ (k - d)` on. -/
theorem chunkHashes_from_hash {hashes : List Str} {hash : Str} (h : bpkg.Perfect k hs cs)
    (hfit : HashesFit hs cs) (hlen : hashes.length = 2 ^ k) (h64 : hash.length = 64) (m : Mem) :
    ∃ m' root,
      Settles (fun fuel => buildTree fuel m bpkg (.ok (some hashes)))
        (.ok (m', { bpkg with tree := some root })) ∧
      ((∀ n, IsNode k n → m'.expectedAt root n ≠ some hash) →
        Settles (fun fuel => bpkgGetAllChunkHashesFromHash fuel m' { bpkg with tree := some root } hash)
          (.ok .new)) ∧
      ∀ d j, d ≤ k → j < 2 ^ d → m'.expectedAt root (2 ^ d + j) = some hash →
        (∀ n, IsNode k n → n < 2 ^ d + j → m'.expectedAt root n ≠ some hash) →
        ∃ qry,
          Settles (fun fuel =>
            bpkgGetAllChunkHashesFromHash fuel m' { bpkg with tree := some root } hash) (.ok qry) ∧
          qry.hashes = ((cs.map ChunkInfo.hashvalue).drop (j * 2 ^ (k - d))).take (2 ^ (k - d)) := by
  obtain ⟨m', node, hb, hbuild⟩ := h.built hlen m
  have hother : ∀ n, IsNode k n → m'.expectedAt m.nodes.next n ≠ some hash →
      (expected hs cs n).take 64 ≠ hash.take 64 := by
    intro n hn hne he
    rw [hb.expectedAt hn] at hne
    exact hne (congrArg some ((expected_take_eq_iff h64).mp he))
  refine ⟨m', _, hbuild, ?_, ?_⟩
  · intro hnone
    exact bpkgGetAllChunkHashesFromHash_none _ hb.labelled rfl fun n hn => hother n hn (hnone n hn)
  · intro d j hd hj hhas hfirst
    obtain ⟨hnode, hleaves⟩ := leavesUnder_level hd hj
    rw [hb.expectedAt hnode] at hhas
    have hmatch := (expected_take_eq_iff h64).mpr (Option.some.inj hhas)
    have hrun := bpkgGetAllChunkHashesFromHash_settles { bpkg with tree := some m.nodes.next }
      hb.labelled rfl h.capacity hnode hmatch fun n hn hlt => hother n hn (hfirst n hn hlt)
    refine ⟨_, hrun, ?_⟩
    -- the range ends with the last chunk at the latest
    have hend : j * 2 ^ (k - d) + 2 ^ (k - d) ≤ 2 ^ k := by
      calc j * 2 ^ (k - d) + 2 ^ (k - d) = (j + 1) * 2 ^ (k - d) := by rw [Nat.add_mul, Nat.one_mul]
        _ ≤ 2 ^ d * 2 ^ (k - d) := Nat.mul_le_mul_right _ hj
        _ = 2 ^ k := by rw [← Nat.pow_add, Nat.add_sub_cancel' hd]
    show (leavesUnder k (2 ^ d + j)).map _ = _
    rw [hleaves, h.map_leaves hfit hend]

end ChunkHashes

/-- The chunk hashes of the package `aa…a`, `bb…b`, `cc…c` for the second chunk's hash. -/
theorem chunkHashes_from_hash_two :
    ∃ m' root,
      Settles (fun fuel => buildTree fuel Mem.empty
          (twoChunks (List.replicate 64 97) (List.replicate 64 98) (List.replicate 64 99))
          (.ok (some [bytes "dd", bytes "ee"])))
        (.ok (m', { twoChunks (List.replicate 64 97) (List.replicate 64 98) (List.replicate 64 99) with
          tree := some root })) ∧
      ((∀ n, IsNode 1 n → m'.expectedAt root n ≠ some (List.replicate 64 99)) →
        Settles (fun fuel => bpkgGetAllChunkHashesFromHash fuel m'
          { twoChunks (List.replicate 64 97) (List.replicate 64 98) (List.replicate 64 99) with
            tree := some root } (List.replicate 64 99)) (.ok .new)) ∧
      ∀ d j, d ≤ 1 → j < 2 ^ d → m'.expectedAt root (2 ^ d + j) = some (List.replicate 64 99) →
        (∀ n, IsNode 1 n → n < 2 ^ d + j → m'.expectedAt root n ≠ some (List.replicate 64 99)) →
        ∃ qry,
          Settles (fun fuel => bpkgGetAllChunkHashesFromHash fuel m'
            { twoChunks (List.replicate 64 97) (List.replicate 64 98) (List.replicate 64 99) with
              tree := some root } (List.replicate 64 99)) (.ok qry) ∧
          qry.hashes = ((([⟨List.replicate 64 98, 0, 1⟩, ⟨List.replicate 64 99, 1, 1⟩] :
            List ChunkInfo).map ChunkInfo.hashvalue).drop (j * 2 ^ (1 - d))).take (2 ^ (1 - d)) :=
  chunkHashes_from_hash (twoChunks_perfect _ _ _) ⟨by decide, by decide⟩ rfl List.length_replicate
    Mem.empty

end Btide
