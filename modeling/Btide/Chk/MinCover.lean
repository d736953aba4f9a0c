import Btide.Tree.Perfect

/-!
# `Chk.MinCover` — the minimal hashes of a package

On any perfect tree, whatever the hashes of its nodes, `bpkg_get_min_completed_hashes` emits the topmost
matching nodes in level order. They form an antichain, so they fit the result array
(`minCompleted_topmost`).

For a package whose listed hashes are consistent, and as long as no two of the concatenations hashed for
inner nodes collide, a node matches exactly when both of its children do, hence exactly when all chunks
below it are complete (`Built.hereditary`). The topmost matching nodes, which
`bpkg_get_min_completed_hashes` emits, are then a smallest cover of the complete chunks.
-/

namespace Btide

open LevelOrder

/-- The results were taken from the nodes `vs`, in this order. -/
structure BpkgQuery.From (qry : BpkgQuery) (m : Mem) (root : Addr) (vs : List Nat) : Prop where
  nodes : qry.nodes = vs.map (m.nodeAt root)
  hashes : qry.hashes.map some = vs.map (m.expectedAt root)

/-- The nodes `vs` emitted as minimal hashes cover the complete chunks `ls`: each of them exactly once,
    nothing else, and no set of nodes with the same leaves beneath it is smaller. -/
structure MinCover (k : Nat) (vs ls : List Nat) : Prop where
  isNode : ∀ v ∈ vs, IsNode k v
  covers : ∀ l, l ∈ ls ↔ IsLeaf k l ∧ ∃ v ∈ vs, Above v l
  once : ∀ l ∈ ls, ∃! v, v ∈ vs ∧ Above v l
  least : ∀ S : Finset Nat, (∀ s ∈ S, IsNode k s) →
    (∀ l, IsLeaf k l → (l ∈ ls ↔ ∃ s ∈ S, Above s l)) → vs.length ≤ S.card

/-- The topmost nodes of a hereditary marking cover the marked leaves. -/
theorem minCover_topmost {k : Nat} {M : Nat → Prop} [DecidablePred M] (h : Hereditary k M) :
    MinCover k (topmost k M) ((List.range' (2 ^ k) (2 ^ k)).filter fun n => M n) := by
  have hpow := Nat.pow_succ 2 k
  have hmem : ∀ l, l ∈ (List.range' (2 ^ k) (2 ^ k)).filter (fun n => M n) ↔ IsLeaf k l ∧ M l := by
    intro l
    rw [List.mem_filter, List.mem_range'_1, decide_eq_true_eq, IsLeaf]
    constructor
    · rintro ⟨⟨h₁, h₂⟩, h₃⟩
      exact ⟨⟨h₁, by omega⟩, h₃⟩
    · rintro ⟨⟨h₁, h₂⟩, h₃⟩
      exact ⟨⟨h₁, by omega⟩, h₃⟩
  refine ⟨fun v hv => (mem_topmost.mp hv).1, fun l => ?_, fun l hl => ?_, fun S hS hcover => ?_⟩
  · rw [hmem]
    constructor
    · rintro ⟨hl, hm⟩
      exact ⟨hl, (h.marked_iff hl).mp hm⟩
    · rintro ⟨hl, hv⟩
      exact ⟨hl, (h.marked_iff hl).mpr hv⟩
  · obtain ⟨hleaf, hm⟩ := (hmem l).mp hl
    obtain ⟨v, hv, ha⟩ := (h.marked_iff hleaf).mp hm
    refine ⟨v, ⟨hv, ha⟩, ?_⟩
    rintro w ⟨hw, ha'⟩
    exact (mem_topmost.mp hw).2.unique (mem_topmost.mp hv).2 ha' ha
  · refine h.topmost_minimal S hS fun l hl => ?_
    rw [← hcover l hl, hmem]
    exact ⟨fun hm => ⟨hl, hm⟩, fun hm => hm.2⟩

/-! ## Any perfect tree -/

section AnyTree

variable {k root : Nat} {comp exp : Nat → Str} {m₀ m : Mem} {node : Nat → Nat}

/-- A perfect tree whose nodes carry the hashes `comp` and `exp`. -/
theorem PerfectTree.labelled (h : PerfectTree k m root node)
    (hcomp : ∀ n, IsNode k n → m.computedAt root n = some (comp n))
    (hexp : ∀ n, IsNode k n → m.expectedAt root n = some (exp n)) :
    Labelled k comp exp m root node := by
  have hlinked : Linked k m root node := by
    refine ⟨h.root, fun w hw => ?_⟩
    obtain ⟨nd, hnd, hl, hr, _⟩ := h.inner w hw
    exact ⟨nd, hnd, hl, hr⟩
  have hhashes : ∀ n nd, IsNode k n → m.nodes.cells (node n) = some nd →
      nd.computedHash = some (comp n) ∧ nd.expectedHash = some (exp n) := by
    intro n nd hn hnd
    rw [← hlinked.computedAt hn hnd, ← hlinked.expectedAt hn hnd]
    exact ⟨hcomp n hn, hexp n hn⟩
  refine ⟨hlinked, fun n hn => ?_⟩
  cases hn.inner_or_leaf with
  | inl hin =>
      obtain ⟨nd, hnd, hlinks⟩ := h.inner n hin
      obtain ⟨hc, he⟩ := hhashes n nd hn hnd
      exact ⟨nd, hnd, ⟨hc, fun _ => hlinks, fun hl => absurd hl hin.not_isLeaf⟩, he⟩
  | inr hleaf =>
      have hpow := Nat.pow_succ 2 k
      have hn' : 2 ^ k + (n - 2 ^ k) = n := Nat.add_sub_cancel' hleaf.1
      obtain ⟨nd, hnd, hfields⟩ := h.leaf (n - 2 ^ k) (by have := hleaf.2; omega)
      rw [hn'] at hnd
      obtain ⟨hc, he⟩ := hhashes n nd hn hnd
      exact ⟨nd, hnd, ⟨hc, fun hin => absurd hleaf hin.not_isLeaf, fun _ => hfields⟩, he⟩

/-- **What `bpkg_get_min_completed_hashes` emits on any perfect tree**, whatever the hashes of its nodes:
    in level order, the expected hash of each node whose hashes match while no proper ancestor's do, and
    nothing else. Every chunk whose hashes match lies under exactly one of them, and there are at most
    as many as chunks. -/
theorem minCompleted_topmost {bpkg : BpkgObj} (h : PerfectTree k m root node)
    (hcomp : ∀ n, IsNode k n → m.computedAt root n = some (comp n))
    (hexp : ∀ n, IsNode k n → m.expectedAt root n = some (exp n))
    (hroot : bpkg.tree = some root) (hchunks : bpkg.nchunks.toInt = (2 ^ k : Nat)) :
    ∃ vs : List Nat,
      Settles (fun fuel => bpkgGetMinCompletedHashes fuel m bpkg)
        (.ok { hashes := vs.map fun v => (exp v).take 64
               nodes := vs.map (m.nodeAt root) }) ∧
      (∀ v, v ∈ vs ↔ IsNode k v ∧ Agree comp exp v ∧
        ∀ u, Above u v → u ≠ v → ¬ Agree comp exp u) ∧
      vs.Pairwise (· < ·) ∧
      (∀ l, IsLeaf k l → Agree comp exp l → ∃! v, v ∈ vs ∧ Above v l) ∧
      (vs.length : Int) ≤ bpkg.nchunks.toInt := by
  have hlab := h.labelled hcomp hexp
  have hrun := bpkgGetMinCompletedHashes_settles bpkg hlab hroot (Int.le_of_eq hchunks.symm)
  have hnodes : (topmost k (Agree comp exp)).map (fun w => some (node w))
      = (topmost k (Agree comp exp)).map (m.nodeAt root) := by
    refine List.map_congr_left fun v hv => ?_
    exact (hlab.linked.nodeAt (mem_topmost.mp hv).1).symm
  rw [hnodes] at hrun
  refine ⟨topmost k (Agree comp exp), hrun, fun v => mem_topmost, topmost_sorted, ?_, ?_⟩
  · intro l hl hm
    obtain ⟨v, hv, ha⟩ := exists_topmost hl.isNode.1 hm
    have hnode : IsNode k v := ⟨ha.1, Nat.lt_of_le_of_lt ha.le hl.2⟩
    refine ⟨v, ⟨mem_topmost.mpr ⟨hnode, hv⟩, ha⟩, ?_⟩
    rintro w ⟨hw, ha'⟩
    exact (mem_topmost.mp hw).2.unique hv ha' ha
  · have hle := topmost_length_le (k := k) (M := Agree comp exp)
    rw [hchunks]
    exact Int.ofNat_le.mpr hle

/-- Two complete chunks under a root that does not match. -/
theorem minCompleted_topmost_two :
    ∃ (m : Mem) (root : Addr) (bpkg : BpkgObj) (comp exp : Nat → Str) (vs : List Nat),
      bpkg.tree = some root ∧
      Settles (fun fuel => bpkgGetMinCompletedHashes fuel m bpkg)
        (.ok { hashes := vs.map fun v => (exp v).take 64
               nodes := vs.map (m.nodeAt root) }) ∧
      (∀ v, v ∈ vs ↔ IsNode 1 v ∧ Agree comp exp v ∧
        ∀ u, Above u v → u ≠ v → ¬ Agree comp exp u) ∧
      vs.Pairwise (· < ·) ∧
      (∀ l, IsLeaf 1 l → Agree comp exp l → ∃! v, v ∈ vs ∧ Above v l) ∧
      (vs.length : Int) ≤ bpkg.nchunks.toInt := by
  have hp := twoChunks_perfect (List.replicate 64 99) (List.replicate 64 97) (List.replicate 64 98)
  have hlen : ([List.replicate 64 97, List.replicate 64 98] : List Str).length = 2 ^ 1 := rfl
  obtain ⟨m, node, hb, _⟩ := hp.built hlen Mem.empty
  have hroot : ({ twoChunks (List.replicate 64 99) (List.replicate 64 97) (List.replicate 64 98) with
      tree := some Mem.empty.nodes.next } : BpkgObj).tree = some Mem.empty.nodes.next := rfl
  obtain ⟨vs, hvs⟩ := minCompleted_topmost hb.perfectTree (fun n hn => hb.computedAt hn)
    (fun n hn => hb.expectedAt hn) hroot rfl
  exact ⟨m, _, _, _, _, vs, rfl, hvs⟩

end AnyTree

/-! ## Consistent packages -/

section Tree

variable {k root : Nat} {comp exp : Nat → Str} {m₀ m : Mem} {node : Nat → Nat}

/-- Where the results of a query come from. -/
theorem Built.from (h : Built k comp exp m₀ m root node) (hexp : ∀ n, (exp n).length ≤ 64)
    {vs : List Nat} (hvs : ∀ v ∈ vs, IsNode k v) :
    BpkgQuery.From { hashes := vs.map fun w => (exp w).take 64
                     nodes := vs.map fun w => some (node w) } m root vs where
  nodes := List.map_congr_left fun v hv => (h.nodeAt (hvs v hv)).symm
  hashes := by
    rw [List.map_map]
    refine List.map_congr_left fun v hv => ?_
    rw [h.expectedAt (hvs v hv), Function.comp_apply, List.take_of_length_le (hexp v)]

end Tree

section Hereditary

variable {k root : Nat} {hs : List Str} {cs : List ChunkInfo} {hashes : List Str} {m₀ m : Mem}
  {node : Nat → Nat}

/-- **A node matches exactly when all chunks below it are complete.** -/
theorem Built.hereditary (h : Built k (computed k hashes) (expected hs cs) m₀ m root node)
    (hlen : 2 ^ k ≤ hashes.length) (h64 : ∀ x ∈ hashes, x.length = 64)
    (hlisted : 2 ^ (k + 1) - 1 ≤ (listed hs cs).length) (hl64 : ∀ x ∈ listed hs cs, x.length = 64)
    (hcons : Consistent k (m.expectedAt root))
    (hinj : Set.InjOn Fips180.sha256Hex
      (concatenations k (m.computedAt root) ∪ concatenations k (m.expectedAt root))) :
    Hereditary k (Agree (computed k hashes) (expected hs cs)) := by
  have hcomp : ∀ n, IsNode k n → (computed k hashes n).length = 64 :=
    fun n hn => computed_length hlen h64 hn
  have hexp : ∀ n, IsNode k n → (expected hs cs n).length = 64 :=
    fun n hn => expected_length hlisted hl64 hn
  rw [concatenations_eq_inputs fun n hn => h.computedAt hn,
    concatenations_eq_inputs fun n hn => h.expectedAt hn, Set.union_comm] at hinj
  have hagree : ∀ n, IsNode k n →
      (Agree (computed k hashes) (expected hs cs) n ↔ expected hs cs n = computed k hashes n) := by
    intro n hn
    rw [Agree, List.take_of_length_le (Nat.le_of_eq (hexp n hn)),
      List.take_of_length_le (Nat.le_of_eq (hcomp n hn))]
  refine hereditary_of_children fun n hn => ?_
  rw [hagree n hn.isNode, hagree _ hn.left, hagree _ hn.right]
  exact (h.expected_labels hcons).eq_iff_children (computed_labels_append hlen h64)
    pairsApart_append hexp hcomp hinj hn

end Hereditary

/-- **The minimal hashes are a smallest cover of the complete chunks**, for every package of the perfect
    shape and every array of computed chunk hashes. -/
theorem minCompleted_smallest_cover {k : Nat} {bpkg : BpkgObj} {hs : List Str} {cs : List ChunkInfo}
    {hashes : List Str} (h : bpkg.Perfect k hs cs) (hlen : hashes.length = 2 ^ k)
    (h64 : ∀ x ∈ hashes, x.length = 64) (hl64 : ∀ x ∈ listed hs cs, x.length = 64) (m : Mem) :
    ∃ m' root,
      Settles (fun fuel => buildTree fuel m bpkg (.ok (some hashes)))
        (.ok (m', { bpkg with tree := some root })) ∧
      (Consistent k (m'.expectedAt root) →
        Set.InjOn Fips180.sha256Hex
          (concatenations k (m'.computedAt root) ∪ concatenations k (m'.expectedAt root)) →
        ∃ min done vs ls,
          Settles (fun fuel => bpkgGetMinCompletedHashes fuel m' { bpkg with tree := some root })
            (.ok min) ∧
          Settles (fun fuel => bpkgGetCompletedChunks fuel m' { bpkg with tree := some root })
            (.ok done) ∧
          min.From m' root vs ∧ done.From m' root ls ∧ MinCover k vs ls) := by
  obtain ⟨m', node, hb, hbuild⟩ := h.built hlen m
  refine ⟨m', _, hbuild, fun hcons hinj => ?_⟩
  have hher := hb.hereditary (Nat.le_of_eq hlen.symm) h64 (Nat.le_of_eq h.listed_length.symm) hl64
    hcons hinj
  have hcover := minCover_topmost hher
  have hmin := bpkgGetMinCompletedHashes_settles { bpkg with tree := some m.nodes.next } hb.labelled
    rfl h.capacity
  have hdone := bpkgGetCompletedChunks_settles { bpkg with tree := some m.nodes.next } hb.labelled
    rfl h.capacity
  exact ⟨_, _, _, _, hmin, hdone, hb.from (fun _ => expected_length_le) hcover.isNode,
    hb.from (fun _ => expected_length_le) (fun l hl => ((hcover.covers l).mp hl).1.isNode), hcover⟩

/-- The complete package of the chunks `aa…a` and `bb…b`. -/
theorem minCompleted_smallest_cover_two :
    ∃ m' root min done vs ls,
      Settles (fun fuel => buildTree fuel Mem.empty
          (twoChunks (Fips180.sha256Hex (List.replicate 64 97 ++ List.replicate 64 98))
            (List.replicate 64 97) (List.replicate 64 98))
          (.ok (some [List.replicate 64 97, List.replicate 64 98])))
        (.ok (m', { twoChunks (Fips180.sha256Hex (List.replicate 64 97 ++ List.replicate 64 98))
            (List.replicate 64 97) (List.replicate 64 98) with tree := some root })) ∧
      BpkgQuery.From min m' root vs ∧ BpkgQuery.From done m' root ls ∧ MinCover 1 vs ls := by
  have hp := twoChunks_perfect (Fips180.sha256Hex (List.replicate 64 97 ++ List.replicate 64 98))
    (List.replicate 64 97) (List.replicate 64 98)
  have hl64 : ∀ x ∈ listed [Fips180.sha256Hex (List.replicate 64 97 ++ List.replicate 64 98)]
      [⟨List.replicate 64 97, 0, 1⟩, ⟨List.replicate 64 98, 1, 1⟩], x.length = 64 := by
    simp [listed]
  have h64 : ∀ x ∈ ([List.replicate 64 97, List.replicate 64 98] : List Str), x.length = 64 := by
    decide
  have hlen : ([List.replicate 64 97, List.replicate 64 98] : List Str).length = 2 ^ 1 := rfl
  obtain ⟨m', root, hbuild, hcover⟩ := minCompleted_smallest_cover hp hlen h64 hl64 Mem.empty
  obtain ⟨m'', node, hb, hbuild'⟩ := hp.built hlen Mem.empty
  obtain ⟨rfl, htree⟩ := Prod.mk.inj (Except.ok.inj (hbuild.unique hbuild'))
  obtain rfl : root = Mem.empty.nodes.next := Option.some.inj (congrArg BpkgObj.tree htree)
  have hc₂ := hb.computedAt (n := 2) (by decide)
  have hc₃ := hb.computedAt (n := 3) (by decide)
  have he₁ := hb.expectedAt (n := 1) (by decide)
  have he₂ := hb.expectedAt (n := 2) (by decide)
  have he₃ := hb.expectedAt (n := 3) (by decide)
  have hcons : Consistent 1 (m'.expectedAt Mem.empty.nodes.next) := by
    intro n hn
    obtain rfl := isInner_one.mp hn
    refine ⟨_, _, he₂, he₃, he₁.trans (congrArg some ?_)⟩
    exact List.take_of_length_le (Nat.le_of_eq (Fips180.sha256Hex_length _))
  have hinj : Set.InjOn Fips180.sha256Hex (concatenations 1 (m'.computedAt Mem.empty.nodes.next) ∪
      concatenations 1 (m'.expectedAt Mem.empty.nodes.next)) := by
    rw [concatenations_one hc₂ hc₃, concatenations_one he₂ he₃]
    rintro x (rfl | rfl) y (rfl | rfl) _ <;> rfl
  obtain ⟨min, done, vs, ls, _, _, hmin, hdone, h⟩ := hcover hcons hinj
  exact ⟨m', _, min, done, vs, ls, hbuild, hmin, hdone, h⟩

end Btide
