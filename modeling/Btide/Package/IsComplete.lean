import Btide.Chk.HashesOf

/-!
# `Package.IsComplete` — the completion status (`isComplete` in `package.c`)

`isComplete` counts the minimal hashes instead of looking at the root: one minimal hash is taken to be
the root's. A package of which exactly one proper subtree is complete also has one minimal hash, so it is
reported as complete. `isComplete_iff_root` says that these are the only packages it is wrong about.
-/

namespace Btide

open LevelOrder

def isComplete (fuel : Nat) (m : Mem) (obj : BpkgObj) : Run Int := do
  let query ← bpkgGetMinCompletedHashes fuel m obj
  if query.len ≠ 1 then .ok 0 else .ok 1

/-- `isComplete` decides whether there is exactly one topmost matching node. -/
theorem isComplete_labelled {k root : Nat} {comp exp : Nat → Str} {m : Mem} {node : Nat → Nat}
    (bpkg : BpkgObj) (h : Labelled k comp exp m root node) (htree : bpkg.tree = some root)
    (hcap : (2 ^ k : Nat) ≤ bpkg.nchunks.toInt) :
    Settles (fun fuel => isComplete fuel m bpkg)
      (.ok (if (topmost k (Agree comp exp)).length = 1 then 1 else 0)) := by
  have hmin := bpkgGetMinCompletedHashes_settles bpkg h htree hcap
  have hrun := hmin.bind (g := fun query _ => if query.len ≠ 1 then .ok 0 else .ok (1 : Int))
    (Settles.const _)
  by_cases hone : (topmost k (Agree comp exp)).length = 1
  · rw [if_pos hone]
    rwa [BpkgQuery.len, List.length_map, if_neg (by simpa using hone)] at hrun
  · rw [if_neg hone]
    rwa [BpkgQuery.len, List.length_map, if_pos hone] at hrun

theorem isComplete_settles {k root : Nat} {comp exp : Nat → Str} {m₀ m : Mem} {node : Nat → Nat}
    (bpkg : BpkgObj) (h : Built k comp exp m₀ m root node) (htree : bpkg.tree = some root)
    (hcap : (2 ^ k : Nat) ≤ bpkg.nchunks.toInt) :
    ∃ r : Int, Settles (fun fuel => isComplete fuel m bpkg) (.ok r) ∧
      (r = 1 ↔ (topmost k (Agree comp exp)).length = 1) := by
  refine ⟨_, isComplete_labelled bpkg h.labelled htree hcap, ?_⟩
  by_cases hone : (topmost k (Agree comp exp)).length = 1
  · simp [hone]
  · simp [hone]

/-- A marking has exactly one topmost node just when the root is marked, unless the one topmost node is
    another one. -/
theorem topmost_one_iff_root {k : Nat} {M : Nat → Prop} [DecidablePred M] :
    ((topmost k M).length = 1 ↔ M 1) ↔
      ¬ ∃ v, IsNode k v ∧ v ≠ 1 ∧ M v ∧ ∀ w, IsNode k w → M w → Above v w := by
  rw [topmost_length_eq_one_iff]
  constructor
  · rintro h ⟨v, hv, hne, hm, hall⟩
    have hroot := h.mp ⟨v, hv, hm, hall⟩
    have habove := hall 1 isNode_root hroot
    exact hne (Nat.le_antisymm habove.le hv.1)
  · intro h
    constructor
    · rintro ⟨v, hv, hm, hall⟩
      by_cases hone : v = 1
      · exact hone ▸ hm
      · exact absurd ⟨v, hv, hone, hm, hall⟩ h
    · intro hm
      exact ⟨1, isNode_root, hm, fun w hw _ => above_root hw.1⟩

/-- **When `isComplete` is right**: it returns 1 exactly for a matching root, unless some other node
    matches and every matching node lies at or below it. -/
theorem isComplete_iff_root {k : Nat} {bpkg : BpkgObj} {hs : List Str} {cs : List ChunkInfo}
    {hashes : List Str} (h : bpkg.Perfect k hs cs) (hlen : hashes.length = 2 ^ k) (m : Mem) :
    ∃ m' root r,
      Settles (fun fuel => buildTree fuel m bpkg (.ok (some hashes)))
        (.ok (m', { bpkg with tree := some root })) ∧
      Settles (fun fuel => isComplete fuel m' { bpkg with tree := some root }) (.ok r) ∧
      ((r = 1 ↔ m'.Match root 1) ↔
        ¬ ∃ v, IsNode k v ∧ v ≠ 1 ∧ m'.Match root v ∧
          ∀ w, IsNode k w → m'.Match root w → Above v w) := by
  obtain ⟨m', node, hb, hbuild⟩ := h.built hlen m
  obtain ⟨r, hrun, hr⟩ := isComplete_settles { bpkg with tree := some m.nodes.next } hb rfl h.capacity
  refine ⟨m', _, r, hbuild, hrun, ?_⟩
  rw [hr, hb.match_iff isNode_root, topmost_one_iff_root]
  -- the two conditions speak about the same nodes
  refine not_congr (exists_congr fun v => and_congr_right fun hv => and_congr_right fun _ => ?_)
  rw [hb.match_iff hv]
  refine and_congr_right fun _ => forall_congr' fun w => ?_
  constructor
  · intro hall hw hm
    exact hall hw ((hb.match_iff hw).mp hm)
  · intro hall hw hm
    exact hall hw ((hb.match_iff hw).mpr hm)

/-- The status is right for the complete package of two chunks. -/
theorem isComplete_iff_root_two :
    ∃ m' root r,
      Settles (fun fuel => buildTree fuel Mem.empty (twoChunks clashRight digestAA digestA)
        (.ok (some [digestAA, digestA])))
        (.ok (m', { twoChunks clashRight digestAA digestA with tree := some root })) ∧
      Settles (fun fuel => isComplete fuel m'
        { twoChunks clashRight digestAA digestA with tree := some root }) (.ok r) ∧
      ((r = 1 ↔ m'.Match root 1) ↔
        ¬ ∃ v, IsNode 1 v ∧ v ≠ 1 ∧ m'.Match root v ∧
          ∀ w, IsNode 1 w → m'.Match root w → Above v w) :=
  isComplete_iff_root (twoChunks_perfect _ _ _) rfl Mem.empty

/-- The hashes of the half downloaded package. -/
theorem half_hashes :
    expected [clashRight] [⟨digestAA, 0, 1⟩, ⟨digestA, 1, 1⟩] 1 = clashRight ∧
    expected [clashRight] [⟨digestAA, 0, 1⟩, ⟨digestA, 1, 1⟩] 2 = digestAA ∧
    expected [clashRight] [⟨digestAA, 0, 1⟩, ⟨digestA, 1, 1⟩] 3 = digestA ∧
    computed 1 [digestAA, digestB] 1 = clashRight' ∧ computed 1 [digestAA, digestB] 2 = digestAA ∧
    computed 1 [digestAA, digestB] 3 = digestB := by
  obtain ⟨_, _, _, _, _, hroot, _⟩ := clash_each
  have hlen : ∀ d ∈ ([digestAA, digestB] : List Str), d.length = 64 := by
    intro d hd
    simp only [List.mem_cons, List.not_mem_nil, or_false] at hd
    apply clashDigests_length
    rcases hd with rfl | rfl <;> simp [clashDigests]
  have c₂ : computed 1 [digestAA, digestB] 2 = digestAA := computed_leaf (by decide)
  have c₃ : computed 1 [digestAA, digestB] 3 = digestB := computed_leaf (by decide)
  have c₁ : computed 1 [digestAA, digestB] 1
      = Fips180.sha256Hex (computed 1 [digestAA, digestB] 2 ++ computed 1 [digestAA, digestB] 3) :=
    @computed_labels_append 1 [digestAA, digestB] (by decide) hlen 1 (by decide)
  rw [c₂, c₃, hroot] at c₁
  exact ⟨clashDigests_take 3, clashDigests_take 2, clashDigests_take 0, c₁, c₂, c₃⟩

/-- **A half downloaded package is reported as complete**: of two chunks the first one has arrived, and
    the root does not match. -/
theorem isComplete_half_downloaded :
    ∃ m' root,
      Settles (fun fuel => buildTree fuel Mem.empty (twoChunks clashRight digestAA digestA)
        (.ok (some [digestAA, digestB])))
        (.ok (m', { twoChunks clashRight digestAA digestA with tree := some root })) ∧
      Consistent 1 (m'.expectedAt root) ∧
      Settles (fun fuel => isComplete fuel m'
        { twoChunks clashRight digestAA digestA with tree := some root }) (.ok 1) ∧
      ¬ m'.Match root 1 := by
  have hp := twoChunks_perfect clashRight digestAA digestA
  have hlen : ([digestAA, digestB] : List Str).length = 2 ^ 1 := rfl
  obtain ⟨e₁, e₂, e₃, c₁, c₂, c₃⟩ := half_hashes
  obtain ⟨_, _, _, hlisted, _, _, _⟩ := clash_each
  obtain ⟨m', node, hb, hbuild⟩ := hp.built hlen Mem.empty
  obtain ⟨r, hrun, hr⟩ := isComplete_settles
    { twoChunks clashRight digestAA digestA with tree := some Mem.empty.nodes.next } hb rfl hp.capacity
  have hroot : ¬ Agree (computed 1 [digestAA, digestB])
      (expected [clashRight] [⟨digestAA, 0, 1⟩, ⟨digestA, 1, 1⟩]) 1 := by
    rw [Agree, e₁, c₁]
    exact clashDigests_ne (i := 3) (j := 5) (by decide)
  have hright : ¬ Agree (computed 1 [digestAA, digestB])
      (expected [clashRight] [⟨digestAA, 0, 1⟩, ⟨digestA, 1, 1⟩]) 3 := by
    rw [Agree, e₃, c₃]
    exact clashDigests_ne (i := 0) (j := 1) (by decide)
  have hleft : Agree (computed 1 [digestAA, digestB])
      (expected [clashRight] [⟨digestAA, 0, 1⟩, ⟨digestA, 1, 1⟩]) 2 := by
    rw [Agree, e₂, c₂]
  have hone : r = 1 := by
    refine hr.mpr (topmost_length_eq_one_iff.mpr ⟨2, by decide, hleft, fun w hw hm => ?_⟩)
    have h1 := hw.1
    have h2 := hw.2
    obtain rfl | rfl | rfl : w = 1 ∨ w = 2 ∨ w = 3 := by omega
    · exact absurd hm hroot
    · exact Above.refl h1
    · exact absurd hm hright
  refine ⟨m', _, hbuild, ?_, hone ▸ hrun, fun h => hroot ((hb.match_iff isNode_root).mp h)⟩
  intro n hn
  obtain rfl := isInner_one.mp hn
  refine ⟨_, _, hb.expectedAt hn.left, hb.expectedAt hn.right,
    (hb.expectedAt hn.isNode).trans (congrArg some ?_)⟩
  rw [e₁, e₂, e₃, hlisted]

end Btide
