import Btide.Tree.HashChunk
import Btide.Tree.Match

/-!
# `Chk.Completed` — the completed chunks of a data file

The whole pipeline from the data file to the answer of `bpkg_get_completed_chunks`: `hashChunk` computes
the array of chunk hashes, `recursiveTree` puts its entry `i` into the leaf `2 ^ k + i`,
`levelOrderAddHash` puts the hash of chunk `i` into the same leaf, and the query reads the leaves from
left to right. Composing the three specifications leaves the chunks whose hash is the digest of their
range.
-/

namespace Btide

open LevelOrder

/-- A filter over consecutive numbers is a filter over the list they index. -/
theorem filter_map_range' {α β : Type} {Q : Nat → Bool} {P : α → Bool} {f : Nat → β} {g : α → β}
    (xs : List α) (s : Nat) (hQ : ∀ i (hi : i < xs.length), Q (s + i) = P xs[i])
    (hf : ∀ i (hi : i < xs.length), f (s + i) = g xs[i]) :
    ((List.range' s xs.length).filter Q).map f = (xs.filter P).map g := by
  induction xs generalizing s with
  | nil => rfl
  | cons x xs ih =>
      have hQ0 : Q s = P x := hQ 0 (Nat.zero_lt_succ _)
      have hf0 : f s = g x := hf 0 (Nat.zero_lt_succ _)
      have hrest := ih (s + 1)
        (fun i hi => by
          have h := hQ (i + 1) (Nat.succ_lt_succ hi)
          rwa [← Nat.add_assoc, Nat.add_right_comm] at h)
        (fun i hi => by
          have h := hf (i + 1) (Nat.succ_lt_succ hi)
          rwa [← Nat.add_assoc, Nat.add_right_comm] at h)
      rw [List.length_cons, List.range'_succ]
      by_cases hx : P x = true
      · rw [List.filter_cons_of_pos (by rw [hQ0, hx]), List.filter_cons_of_pos hx, List.map_cons,
          List.map_cons, hf0, hrest]
      · rw [List.filter_cons_of_neg (by rw [hQ0]; exact hx), List.filter_cons_of_neg hx, hrest]

/-- **The completed chunks are those whose hash is the digest of their bytes**, in order, for every
    non-empty data file that contains all ranges. -/
theorem completedChunks_of_file {k : Nat} {bpkg : BpkgObj} {hs : List Str} {cs : List ChunkInfo}
    {contents : Str} (pageSize : Nat) (h : bpkg.Perfect k hs cs)
    (h64 : ∀ c ∈ cs, c.hashvalue.length = 64) (hne : contents ≠ [])
    (hmax : (contents.length : Int) ≤ INT_MAX) (hin : ∀ c ∈ cs, c.Within contents.length) (m : Mem) :
    ∃ hashes m' root qry,
      hashChunk pageSize (.present true true contents) bpkg = .ok (.ok hashes) ∧
      Settles (fun fuel => buildTree fuel m bpkg (.ok (some hashes)))
        (.ok (m', { bpkg with tree := some root })) ∧
      Settles (fun fuel => bpkgGetCompletedChunks fuel m' { bpkg with tree := some root })
        (.ok qry) ∧
      qry.hashes = (cs.filter fun c =>
        c.hashvalue = Fips180.sha256Hex (chunkBytes contents c)).map ChunkInfo.hashvalue := by
  have hmapping := length_le_mapping pageSize contents
  -- a range within the file is read from the file
  have hbytes : ∀ c ∈ cs, chunkBytes (mapping pageSize contents) c = chunkBytes contents c := by
    intro c hc
    obtain ⟨hoff, hsize, hend⟩ := hin c hc
    have hlen : c.size.toInt.toNat ≤ (contents.drop c.offset.toInt.toNat).length := by
      rw [List.length_drop]
      omega
    rw [chunkBytes, chunkBytes, mapping, List.drop_append_of_le_length (by omega),
      List.take_append_of_le_length hlen]
  have hhash := hashChunk_ok pageSize h.chunks h.nchunks hne fun c hc => by
    obtain ⟨hoff, hsize, hend⟩ := hin c hc
    exact (show c.Within _ from ⟨hoff, hsize, by omega⟩).hashable (by omega)
  rw [List.map_congr_left fun c hc => congrArg Fips180.sha256Hex (hbytes c hc)] at hhash
  have hlen : (cs.map fun c => Fips180.sha256Hex (chunkBytes contents c)).length = 2 ^ k := by
    rw [List.length_map, h.chunks_length]
  obtain ⟨m', node, hb, hbuild⟩ := h.built hlen m
  have hqry := bpkgGetCompletedChunks_settles { bpkg with tree := some m.nodes.next } hb.labelled rfl
    h.capacity
  refine ⟨_, m', _, _, hhash, hbuild, hqry, ?_⟩
  rw [collected, ← h.chunks_length]
  -- the leaf of chunk `i` holds the two hashes of chunk `i`
  have hexp : ∀ i (hi : i < cs.length), expected hs cs (cs.length + i) = cs[i].hashvalue := by
    intro i hi
    rw [h.chunks_length, h.expected_leaf hi,
      List.take_of_length_le (Nat.le_of_eq (h64 _ (List.getElem_mem hi)))]
  have hcomp : ∀ i (hi : i < cs.length),
      computed k (cs.map fun c => Fips180.sha256Hex (chunkBytes contents c)) (cs.length + i)
        = Fips180.sha256Hex (chunkBytes contents cs[i]) := by
    intro i hi
    have hpow := Nat.pow_succ 2 k
    have hcs := h.chunks_length
    have hleaf : IsLeaf k (2 ^ k + i) := ⟨Nat.le_add_right _ _, by omega⟩
    rw [hcs, computed_leaf hleaf, leafHash, Nat.add_sub_cancel_left,
      List.getD_eq_getElem _ _ (by rwa [List.length_map]), List.getElem_map,
      List.take_of_length_le (Nat.le_of_eq (Fips180.sha256Hex_length _))]
  refine filter_map_range' cs cs.length (fun i hi => ?_) (fun i hi => ?_)
  · have h64i := h64 _ (List.getElem_mem hi)
    refine decide_eq_decide.mpr ?_
    rw [Agree, hexp i hi, hcomp i hi, List.take_of_length_le (Nat.le_of_eq h64i),
      List.take_of_length_le (Nat.le_of_eq (Fips180.sha256Hex_length _))]
  · rw [hexp i hi, List.take_of_length_le (Nat.le_of_eq (h64 _ (List.getElem_mem hi)))]

/-- A file of two bytes. -/
theorem completedChunks_of_file_two :
    ∃ hashes m' root qry,
      hashChunk 4096 (.present true true (bytes "ab"))
          (twoChunks (List.replicate 64 99) (List.replicate 64 97) (List.replicate 64 98))
        = .ok (.ok hashes) ∧
      Settles (fun fuel => buildTree fuel Mem.empty
          (twoChunks (List.replicate 64 99) (List.replicate 64 97) (List.replicate 64 98))
          (.ok (some hashes)))
        (.ok (m', { twoChunks (List.replicate 64 99) (List.replicate 64 97) (List.replicate 64 98) with
          tree := some root })) ∧
      Settles (fun fuel => bpkgGetCompletedChunks fuel m'
        { twoChunks (List.replicate 64 99) (List.replicate 64 97) (List.replicate 64 98) with
          tree := some root }) (.ok qry) ∧
      qry.hashes = (([⟨List.replicate 64 97, 0, 1⟩, ⟨List.replicate 64 98, 1, 1⟩] :
          List ChunkInfo).filter fun c =>
        c.hashvalue = Fips180.sha256Hex (chunkBytes (bytes "ab") c)).map ChunkInfo.hashvalue := by
  refine completedChunks_of_file 4096 (twoChunks_perfect _ _ _) (by decide) (by decide) (by decide) ?_
    Mem.empty
  intro c hc
  rcases List.mem_pair.mp hc with rfl | rfl
  · exact ⟨by decide, by decide, by decide⟩
  · exact ⟨by decide, by decide, by decide⟩

end Btide
