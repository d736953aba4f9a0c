import Btide.Chk.MinCover
import Btide.Crypt.Eval
import Btide.Theory.Missing

/-!
# `Chk.Missing` — how many minimal hashes there are

The two queries of one tree, side by side. A package of `2 ^ k` chunks that is complete has one minimal
hash, that of the root. With a single chunk missing there are `k` of them, and with `d` at most `d * k`
(`minCompleted_missing`).
-/

namespace Btide

open LevelOrder

/-- **The fewer chunks are missing, the fewer minimal hashes.** For every package of the perfect shape
    and every array of computed chunk hashes: one hash when all chunks are complete, one for each level
    below the root when all but one are, and at most that many for each missing chunk. -/
theorem minCompleted_missing {k : Nat} {bpkg : BpkgObj} {hs : List Str} {cs : List ChunkInfo}
    {hashes : List Str} (h : bpkg.Perfect k hs cs) (hlen : hashes.length = 2 ^ k)
    (h64 : ∀ x ∈ hashes, x.length = 64) (hl64 : ∀ x ∈ listed hs cs, x.length = 64) (m : Mem) :
    ∃ m' root,
      Settles (fun fuel => buildTree fuel m bpkg (.ok (some hashes)))
        (.ok (m', { bpkg with tree := some root })) ∧
      (Consistent k (m'.expectedAt root) →
        Set.InjOn Fips180.sha256Hex
          (concatenations k (m'.computedAt root) ∪ concatenations k (m'.expectedAt root)) →
        ∃ min done,
          Settles (fun fuel => bpkgGetMinCompletedHashes fuel m' { bpkg with tree := some root })
            (.ok min) ∧
          Settles (fun fuel => bpkgGetCompletedChunks fuel m' { bpkg with tree := some root })
            (.ok done) ∧
          done.hashes.length ≤ 2 ^ k ∧
          (done.hashes.length = 2 ^ k → min.hashes.length = 1) ∧
          (done.hashes.length + 1 = 2 ^ k → min.hashes.length = k) ∧
          (done.hashes.length < 2 ^ k →
            min.hashes.length ≤ (2 ^ k - done.hashes.length) * k)) := by
  obtain ⟨m', node, hb, hbuild⟩ := h.built hlen m
  refine ⟨m', _, hbuild, fun hcons hinj => ?_⟩
  have hher := hb.hereditary (Nat.le_of_eq hlen.symm) h64 (Nat.le_of_eq h.listed_length.symm) hl64
    hcons hinj
  have hmin := bpkgGetMinCompletedHashes_settles { bpkg with tree := some m.nodes.next } hb.labelled
    rfl h.capacity
  have hdone := bpkgGetCompletedChunks_settles { bpkg with tree := some m.nodes.next } hb.labelled
    rfl h.capacity
  have hsum := marked_add_missing k (Agree (computed k hashes) (expected hs cs))
  refine ⟨_, _, hmin, hdone, ?_⟩
  simp only [collected, List.length_map]
  refine ⟨by omega, fun hall => ?_, fun hone => ?_, fun hsome => ?_⟩
  · exact hher.topmost_length_of_complete (List.length_eq_zero_iff.mp (by omega))
  · obtain ⟨l, hl⟩ := List.length_eq_one_iff.mp
      (by omega : (missing k (Agree (computed k hashes) (expected hs cs))).length = 1)
    exact hher.topmost_length_of_single hl
  · have hle := hher.topmost_length_le_missing fun hnil => by
      rw [hnil, List.length_nil] at hsum
      omega
    have hmissing : 2 ^ k - ((List.range' (2 ^ k) (2 ^ k)).filter fun w =>
        Agree (computed k hashes) (expected hs cs) w).length
        = (missing k (Agree (computed k hashes) (expected hs cs))).length := by omega
    rwa [hmissing]

/-- The second chunk of `aa…a` and `bb…b` reads `cc…c`. -/
theorem minCompleted_missing_two :
    ∃ m' root min done,
      Settles (fun fuel => buildTree fuel Mem.empty
          (twoChunks (Fips180.sha256Hex (List.replicate 64 97 ++ List.replicate 64 98))
            (List.replicate 64 97) (List.replicate 64 98))
          (.ok (some [List.replicate 64 97, List.replicate 64 99])))
        (.ok (m', { twoChunks (Fips180.sha256Hex (List.replicate 64 97 ++ List.replicate 64 98))
            (List.replicate 64 97) (List.replicate 64 98) with tree := some root })) ∧
      Settles (fun fuel => bpkgGetMinCompletedHashes fuel m'
          { twoChunks (Fips180.sha256Hex (List.replicate 64 97 ++ List.replicate 64 98))
            (List.replicate 64 97) (List.replicate 64 98) with tree := some root }) (.ok min) ∧
      Settles (fun fuel => bpkgGetCompletedChunks fuel m'
          { twoChunks (Fips180.sha256Hex (List.replicate 64 97 ++ List.replicate 64 98))
            (List.replicate 64 97) (List.replicate 64 98) with tree := some root }) (.ok done) ∧
      done.hashes.length + 1 = 2 ^ 1 ∧ min.hashes.length = 1 := by
  have hp := twoChunks_perfect (Fips180.sha256Hex (List.replicate 64 97 ++ List.replicate 64 98))
    (List.replicate 64 97) (List.replicate 64 98)
  have hl64 : ∀ x ∈ listed [Fips180.sha256Hex (List.replicate 64 97 ++ List.replicate 64 98)]
      [⟨List.replicate 64 97, 0, 1⟩, ⟨List.replicate 64 98, 1, 1⟩], x.length = 64 := by
    simp [listed]
  have h64 : ∀ x ∈ ([List.replicate 64 97, List.replicate 64 99] : List Str), x.length = 64 := by
    decide
  have hlen : ([List.replicate 64 97, List.replicate 64 99] : List Str).length = 2 ^ 1 := rfl
  obtain ⟨m', root, hbuild, hcount⟩ := minCompleted_missing hp hlen h64 hl64 Mem.empty
  obtain ⟨m'', node, hb, hbuild'⟩ := hp.built hlen Mem.empty
  obtain ⟨rfl, htree⟩ := Prod.mk.inj (Except.ok.inj (hbuild.unique hbuild'))
  obtain rfl : root = Mem.empty.nodes.next := Option.some.inj (congrArg BpkgObj.tree htree)
  have hc₂ := hb.computedAt (n := 2) (by decide)
  have hc₃ := hb.computedAt (n := 3) (by decide)
  have he₁ := hb.expectedAt (n := 1) (by decide)
  have he₂ := hb.expectedAt (n := 2) (by decide)
  have he₃ := hb.expectedAt (n := 3) (by decide)
  have hcons : Consistent 1 (m'.expectedAt Mem.empty.nodes.next) := by
    intro n hn
    obtain rfl := isInner_one.mp hn
    refine ⟨_, _, he₂, he₃, he₁.trans (congrArg some ?_)⟩
    exact List.take_of_length_le (Nat.le_of_eq (Fips180.sha256Hex_length _))
  have hne : Fips180.sha256Hex (List.replicate 64 97 ++ List.replicate 64 99)
      ≠ Fips180.sha256Hex (List.replicate 64 97 ++ List.replicate 64 98) := by
    rw [Fips180.sha256Hex_eq_eval, Fips180.sha256Hex_eq_eval]
    decide +kernel
  have hinj : Set.InjOn Fips180.sha256Hex (concatenations 1 (m'.computedAt Mem.empty.nodes.next) ∪
      concatenations 1 (m'.expectedAt Mem.empty.nodes.next)) := by
    rw [concatenations_one hc₂ hc₃, concatenations_one he₂ he₃]
    rintro x (rfl | rfl) y (rfl | rfl) heq
    · rfl
    · exact absurd heq hne
    · exact absurd heq.symm hne
    · rfl
  obtain ⟨min, done, hmin, hdone, _, _, hsingle, _⟩ := hcount hcons hinj
  -- the first leaf agrees and the second does not
  have hcollected := bpkgGetCompletedChunks_settles { twoChunks (Fips180.sha256Hex
    (List.replicate 64 97 ++ List.replicate 64 98)) (List.replicate 64 97) (List.replicate 64 98) with
      tree := some Mem.empty.nodes.next } hb.labelled rfl hp.capacity
  have hone : done.hashes.length + 1 = 2 ^ 1 := by
    cases hdone.unique hcollected
    rfl
  exact ⟨m', _, min, done, hbuild, hmin, hdone, hone, hsingle hone⟩

end Btide
