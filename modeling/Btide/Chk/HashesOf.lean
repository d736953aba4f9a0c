import Btide.Crypt.Eval
import Btide.Chk.MinCover

/-!
# `Chk.HashesOf` — asking for the chunks of an emitted hash

`bpkg_get_all_chunk_hashes_from_hash` knows a node only by its expected hash and takes the first node in
level order that has it. That is harmless when another node of the same level has the same hash, since
then the leaves below the two nodes have the same hashes as well. It is not when the other node lies
higher up: nothing distinguishes the hash of a chunk from the hash of an inner node, so a chunk whose
content is the concatenation of two hashes of the package is taken for the inner node
(`hashesOf_leaf_taken_for_inner`). If the emitted node is the root, or one chunk below it is no such
concatenation, the answer is right (`hashesOf_min_completed`).
-/

namespace Btide

open LevelOrder

section Labels

variable {k u v : Nat} {exp : Nat → Str}

/-- The contents hashed for the leaves. -/
def Contents (k : Nat) (exp : Nat → Str) (contents : List Str) : Prop :=
  ∀ n, IsLeaf k n → ∃ content, contents[n - 2 ^ k]? = some content ∧
    exp n = Fips180.sha256Hex content

/-- **Equal hashes, equal chunks below.** The earlier of two nodes with one hash lies on the same level
    unless every chunk below the later one has the concatenation of an inner node as its content. -/
theorem leaves_eq_of_label_eq {contents : List Str} (hlabels : Labels Fips180.sha256Hex (· ++ ·) k exp)
    (h64 : ∀ n, IsNode k n → (exp n).length = 64) (hcontents : Contents k exp contents)
    (hinj : Set.InjOn Fips180.sha256Hex ({x | x ∈ contents} ∪ inputs (· ++ ·) k exp))
    (hu : IsNode k u) (hv : IsNode k v) (huv : u ≤ v) (he : exp u = exp v)
    (hplain : v = 1 ∨ ∃ n content, IsLeaf k n ∧ Above v n ∧ contents[n - 2 ^ k]? = some content ∧
      content ∉ inputs (· ++ ·) k exp) :
    (leavesUnder k u).map exp = (leavesUnder k v).map exp := by
  have hinj' : Set.InjOn Fips180.sha256Hex (inputs (· ++ ·) k exp ∪ inputs (· ++ ·) k exp) :=
    hinj.mono (by rw [Set.union_self]; exact Set.subset_union_right)
  have hbelow := hlabels.eq_below hlabels pairsApart_append h64 h64 hinj' (k - Nat.log 2 v)
  rcases Nat.lt_or_ge (Nat.log 2 u) (Nat.log 2 v) with hlt | hge
  · -- `u` lies higher: each leaf below `v` has the hash of an inner node
    exfalso
    rcases hplain with rfl | ⟨n, content, hleaf, habove, hget, hcontent⟩
    · rw [Nat.log_one_right] at hlt
      omega
    have hdiv := (above_leaf_iff hleaf hv.1).mp habove
    have hn : v * 2 ^ (k - Nat.log 2 v) + n % 2 ^ (k - Nat.log 2 v) = n := by
      have hsum := Nat.div_add_mod n (2 ^ (k - Nat.log 2 v))
      rwa [hdiv, Nat.mul_comm] at hsum
    have hpos := Nat.two_pow_pos (k - Nat.log 2 v)
    have hmod := Nat.mod_lt n hpos
    generalize n % 2 ^ (k - Nat.log 2 v) = r at hn hmod
    subst hn
    have hin : IsInner k (u * 2 ^ (k - Nat.log 2 v) + r) := by
      refine ⟨Nat.add_pos_left (Nat.mul_pos hu.1 hpos) r, ?_⟩
      have hu2 : u < 2 ^ (Nat.log 2 u + 1) := Nat.lt_pow_succ_log_self (by omega) u
      have hle : 2 ^ (Nat.log 2 u + 1) ≤ 2 ^ Nat.log 2 v := Nat.pow_le_pow_right (by omega) hlt
      calc u * 2 ^ (k - Nat.log 2 v) + r < (u + 1) * 2 ^ (k - Nat.log 2 v) := by
            rw [Nat.add_mul, Nat.one_mul]
            omega
        _ ≤ 2 ^ Nat.log 2 v * 2 ^ (k - Nat.log 2 v) :=
            Nat.mul_le_mul_right _ (Nat.le_trans hu2 hle)
        _ = 2 ^ k := by rw [← Nat.pow_add, Nat.add_sub_cancel' hv.log_le]
    have hsame := hbelow u v r hu.1 hv.1 hmod hin.isNode.2 hleaf.2 he
    obtain ⟨content', hget', hhash⟩ := hcontents _ hleaf
    obtain rfl : content' = content := Option.some.inj (hget'.symm.trans hget)
    rw [hlabels _ hin, hhash] at hsame
    have hx := hinj (Or.inr (mem_inputs hin)) (Or.inl (List.mem_of_getElem? hget)) hsame
    exact hcontent (hx ▸ mem_inputs hin)
  · -- the same level: corresponding leaves
    have hlog : Nat.log 2 u = Nat.log 2 v := Nat.le_antisymm (Nat.log_mono_right huv) hge
    rw [leavesUnder_eq_range' hu, leavesUnder_eq_range' hv, hlog, firstLeaf, firstLeaf, hlog]
    refine List.ext_getElem (by simp) fun i hi hi' => ?_
    have hi2 : i < 2 ^ (k - Nat.log 2 v) := by simpa using hi
    simp only [List.getElem_map, List.getElem_range', Nat.one_mul]
    have hul := isLeaf_mul_add (r := i) hu (by rwa [hlog])
    rw [hlog] at hul
    exact hbelow u v i hu.1 hv.1 hi2 hul.2 (isLeaf_mul_add hv hi2).2 he

end Labels

/-- Chunk hashes that are the digests of the contents. -/
theorem BpkgObj.Perfect.contents {bpkg : BpkgObj} {k : Nat} {hs : List Str} {cs : List ChunkInfo}
    (h : bpkg.Perfect k hs cs) {contents : List Str}
    (hcontents : cs.map ChunkInfo.hashvalue = contents.map Fips180.sha256Hex) :
    Contents k (expected hs cs) contents := by
  intro n hn
  have hpow := Nat.pow_succ 2 k
  have hcs := h.chunks_length
  have hi : n - 2 ^ k < cs.length := by have := hn.2; omega
  have hlen : cs.length = contents.length := by
    have := congrArg List.length hcontents
    rwa [List.length_map, List.length_map] at this
  have hn' : 2 ^ k + (n - 2 ^ k) = n := Nat.add_sub_cancel' hn.1
  have hget : cs[n - 2 ^ k].hashvalue = Fips180.sha256Hex contents[n - 2 ^ k] := by
    have h₁ := congrArg (fun xs : List Str => xs[n - 2 ^ k]?) hcontents
    simpa [hi, hlen ▸ hi] using h₁
  refine ⟨contents[n - 2 ^ k], List.getElem?_eq_getElem (hlen ▸ hi), ?_⟩
  have hexp := h.expected_leaf hi
  rw [hn'] at hexp
  rw [hexp, hget, List.take_of_length_le (Nat.le_of_eq (Fips180.sha256Hex_length _))]

/-- The first node in level order with the expected hash of `v`. -/
theorem exists_first {k v : Nat} (exp : Nat → Str) (hv : IsNode k v) :
    ∃ u, IsNode k u ∧ u ≤ v ∧ (exp u).take 64 = (exp v).take 64 ∧
      ∀ w, IsNode k w → w < u → (exp w).take 64 ≠ (exp v).take 64 := by
  have hex : ∃ u, IsNode k u ∧ (exp u).take 64 = (exp v).take 64 := ⟨v, hv, rfl⟩
  refine ⟨Nat.find hex, (Nat.find_spec hex).1, Nat.find_min' hex ⟨hv, rfl⟩, (Nat.find_spec hex).2, ?_⟩
  intro w hw hlt he
  exact Nat.find_min hex hlt ⟨hw, he⟩

/-- `qry` contains `hash`, taken from the node `v`. -/
def BpkgQuery.Emits (qry : BpkgQuery) (m : Mem) (root : Addr) (v : Nat) (hash : Str) : Prop :=
  (m.nodeAt root v, hash) ∈ qry.nodes.zip qry.hashes

theorem Built.emits_iff {k root v : Nat} {comp exp : Nat → Str} {m₀ m : Mem} {node : Nat → Nat}
    (h : Built k comp exp m₀ m root node) (hexp : ∀ n, (exp n).length ≤ 64) {vs : List Nat}
    (hvs : ∀ w ∈ vs, IsNode k w) (hv : IsNode k v) {hash : Str} :
    BpkgQuery.Emits { hashes := vs.map fun w => (exp w).take 64
                      nodes := vs.map fun w => some (node w) } m root v hash ↔
      v ∈ vs ∧ hash = exp v := by
  rw [BpkgQuery.Emits, List.zip_map', List.mem_map, h.nodeAt hv]
  constructor
  · rintro ⟨w, hw, he⟩
    obtain ⟨hnode, hhash⟩ := Prod.mk.inj he
    obtain rfl : w = v := h.inj w v (hvs w hw) hv (Option.some.inj hnode)
    exact ⟨hw, by rw [← hhash, List.take_of_length_le (hexp w)]⟩
  · rintro ⟨hw, rfl⟩
    exact ⟨v, hw, by rw [List.take_of_length_le (hexp v)]⟩

/-- **The two hash queries agree** on the root, and on every emitted node below which not every chunk has the
    concatenation of an inner node's two hashes as its content. -/
theorem hashesOf_min_completed {k : Nat} {bpkg : BpkgObj} {hs : List Str} {cs : List ChunkInfo}
    {hashes contents : List Str} (h : bpkg.Perfect k hs cs) (hlen : hashes.length = 2 ^ k)
    (hcontents : cs.map ChunkInfo.hashvalue = contents.map Fips180.sha256Hex) (m : Mem) :
    ∃ m' root,
      Settles (fun fuel => buildTree fuel m bpkg (.ok (some hashes)))
        (.ok (m', { bpkg with tree := some root })) ∧
      (Consistent k (m'.expectedAt root) →
        Set.InjOn Fips180.sha256Hex
          ({x | x ∈ contents} ∪ concatenations k (m'.expectedAt root)) →
        ∃ min,
          Settles (fun fuel => bpkgGetMinCompletedHashes fuel m' { bpkg with tree := some root })
            (.ok min) ∧
          ∀ v hash, IsNode k v → min.Emits m' root v hash →
            (v = 1 ∨ ∃ n content, IsLeaf k n ∧ Above v n ∧ contents[n - 2 ^ k]? = some content ∧
              content ∉ concatenations k (m'.expectedAt root)) →
            ∃ qry,
              Settles (fun fuel => bpkgGetAllChunkHashesFromHash fuel m'
                { bpkg with tree := some root } hash) (.ok qry) ∧
              qry.hashes.map some = (leavesUnder k v).map (m'.expectedAt root)) := by
  obtain ⟨m', node, hb, hbuild⟩ := h.built hlen m
  refine ⟨m', _, hbuild, fun hcons hinj => ?_⟩
  have hmin := bpkgGetMinCompletedHashes_settles { bpkg with tree := some m.nodes.next } hb.labelled
    rfl h.capacity
  refine ⟨_, hmin, fun v hash hvn hemits hplain => ?_⟩
  obtain ⟨_, rfl⟩ := (hb.emits_iff (fun _ => expected_length_le)
    (fun w hw => (mem_topmost.mp hw).1) hvn).mp hemits
  obtain ⟨u, hu, huv, hmatch, hfirst⟩ := exists_first (expected hs cs) hvn
  have hqry := bpkgGetAllChunkHashesFromHash_settles { bpkg with tree := some m.nodes.next }
    hb.labelled rfl h.capacity hu hmatch hfirst
  refine ⟨_, hqry, ?_⟩
  rw [concatenations_eq_inputs fun n hn => hb.expectedAt hn] at hinj hplain
  have hlabels := hb.expected_labels hcons
  have hleaves := h.contents hcontents
  -- every expected hash is a digest
  have h64 : ∀ n, IsNode k n → (expected hs cs n).length = 64 := by
    intro n hn
    rcases hn.inner_or_leaf with hin | hleaf
    · rw [hlabels n hin, Fips180.sha256Hex_length]
    · obtain ⟨content, _, he⟩ := hleaves n hleaf
      rw [he, Fips180.sha256Hex_length]
  have he : expected hs cs u = expected hs cs v := by
    rwa [List.take_of_length_le expected_length_le, List.take_of_length_le expected_length_le]
      at hmatch
  -- `u` comes first in level order, and the same chunks lie below it
  have hsame := leaves_eq_of_label_eq hlabels h64 hleaves hinj hu hvn huv he hplain
  have hunder : ∀ n ∈ leavesUnder k v, IsNode k n := fun n hn => (mem_leavesUnder.mp hn).1.isNode
  calc ((leavesUnder k u).map fun w => (expected hs cs w).take 64).map some
      = ((leavesUnder k u).map (expected hs cs)).map some := by
        refine congrArg _ (List.map_congr_left fun w _ => ?_)
        exact List.take_of_length_le expected_length_le
    _ = ((leavesUnder k v).map (expected hs cs)).map some := by rw [hsame]
    _ = (leavesUnder k v).map (m'.expectedAt m.nodes.next) := by
        rw [List.map_map]
        exact List.map_congr_left fun w hw => (hb.expectedAt (hunder w hw)).symm

/-! ## A chunk taken for an inner node

The third chunk of the package `clash` has the concatenation of the first two chunks' hashes as its
content; the other three hold `a`. In the data file the last chunk holds `b` instead. -/

def digestA : Str := bytes "ca978112ca1bbdcafac231b39a23dc4da786eff8147c4e72b9807785afee48bb"

def digestB : Str := bytes "3e23e8160039594a33894f6564e1b1348bbd7a0088d42c4acb73eeaed59c009d"

/-- The hash of the inner node 2 and of the third chunk. -/
def digestAA : Str := bytes "bc2ef2f0ec3652599ac78ba7e2aa6f1996fcb195a0418f94940648a7ed22402c"

/-- The listed and the computed hash of the inner node 3. -/
def clashRight : Str := bytes "311dd584aacad15bd66f26036cf5f40bbbaefea0dd52afeae4d26ce67d13eb6e"

def clashRight' : Str := bytes "56e10aa29badfd4e764a0ee7b00fd41546f7511f8eff3eb966661f2de54b7f9c"

/-- The listed and the computed hash of the root. -/
def clashRoot : Str := bytes "4b336f2959fb0c59f2c1028f9f9b9187fa4f56b491193f2d708103b62c1fb945"

def clashRoot' : Str := bytes "526883477dcb1d733f037a5524539cff99178c98794192caaafd09bc1c4d95e0"

def clashHashes : List Str := [clashRoot, digestAA, clashRight]

def clashContents : List Str := [bytes "a", bytes "a", digestA ++ digestA, bytes "a"]

def clashChunks : List ChunkInfo :=
  [⟨digestA, 0, 1⟩, ⟨digestA, 1, 1⟩, ⟨digestAA, 2, 128⟩, ⟨digestA, 130, 1⟩]

def clash : BpkgObj where
  identifier := bytes "c1a5"
  filename := bytes "clash.data"
  size := 131
  nhashes := 3
  hashes := some clashHashes
  nchunks := 4
  chunks := some clashChunks
  tree := none

/-- What the data file holds in the place of the four chunks. -/
def clashData : List Str := [bytes "a", bytes "a", digestA ++ digestA, bytes "b"]

def clashComputed : List Str := [digestA, digestA, digestAA, digestB]

/-- All strings hashed for the package, and their digests. -/
def clashInputs : List Str :=
  [bytes "a", bytes "b", digestA ++ digestA, digestAA ++ digestA, digestAA ++ clashRight,
    digestAA ++ digestB, digestAA ++ clashRight']

/-- The digests of `clashInputs`. -/
def clashDigests : List Str :=
  [digestA, digestB, digestAA, clashRight, clashRoot, clashRight', clashRoot']

section ClashDigests

open Fips180

theorem clash_digests : clashInputs.map sha256Hex = clashDigests := by
  have heval : sha256Hex = fun x => hex (digest (evalSha256 x)) := funext sha256Hex_eq_eval
  rw [heval]
  decide +kernel

theorem clashDigests_nodup : clashDigests.Nodup := by decide +kernel

theorem clashDigests_length {d : Str} (hd : d ∈ clashDigests) : d.length = 64 := by
  rw [← clash_digests] at hd
  obtain ⟨x, _, rfl⟩ := List.mem_map.mp hd
  exact sha256Hex_length x

theorem clashDigests_take (i : Fin 7) : (clashDigests.get i).take 64 = clashDigests.get i :=
  List.take_of_length_le (Nat.le_of_eq (clashDigests_length (List.get_mem clashDigests i)))

/-- `strncmp` tells the digests apart. -/
theorem clashDigests_ne {i j : Fin 7} (h : i ≠ j) :
    (clashDigests.get i).take 64 ≠ (clashDigests.get j).take 64 := by
  rw [clashDigests_take, clashDigests_take]
  exact clashDigests_nodup.injective_get.ne h

theorem clash_each : sha256Hex (bytes "a") = digestA ∧ sha256Hex (bytes "b") = digestB ∧
    sha256Hex (digestA ++ digestA) = digestAA ∧ sha256Hex (digestAA ++ digestA) = clashRight ∧
    sha256Hex (digestAA ++ clashRight) = clashRoot ∧
    sha256Hex (digestAA ++ digestB) = clashRight' ∧
    sha256Hex (digestAA ++ clashRight') = clashRoot' := by
  have h := clash_digests
  simp only [clashInputs, clashDigests, List.map_cons, List.map_nil, List.cons.injEq, and_true] at h
  exact h

/-- No two of the hashed strings collide. -/
theorem clash_injOn : Set.InjOn sha256Hex {x | x ∈ clashInputs} := by
  have hnodup : (clashInputs.map sha256Hex).Nodup := by
    rw [clash_digests]
    exact clashDigests_nodup
  intro x hx y hy h
  exact List.inj_on_of_nodup_map hnodup hx hy h

end ClashDigests

theorem clash_perfect : clash.Perfect 2 clashHashes clashChunks where
  hashes := rfl
  chunks := rfl
  nhashes := rfl
  nchunks := rfl
  height := by decide
  chunks_length := rfl
  hashes_length := rfl

/-- The expected hashes of the seven nodes. -/
theorem clash_expected :
    expected clashHashes clashChunks 1 = clashRoot ∧
    expected clashHashes clashChunks 2 = digestAA ∧
    expected clashHashes clashChunks 3 = clashRight ∧
    expected clashHashes clashChunks 4 = digestA ∧
    expected clashHashes clashChunks 5 = digestA ∧
    expected clashHashes clashChunks 6 = digestAA ∧
    expected clashHashes clashChunks 7 = digestA := by
  exact ⟨clashDigests_take 4, clashDigests_take 2, clashDigests_take 3, clashDigests_take 0,
    clashDigests_take 0, clashDigests_take 2, clashDigests_take 0⟩

/-- The expected hashes are digests. -/
theorem clash_listed_length {d : Str} (hd : d ∈ listed clashHashes clashChunks) : d.length = 64 := by
  simp only [listed, clashHashes, clashChunks, List.map_cons, List.map_nil, List.cons_append,
    List.nil_append, List.mem_cons, List.not_mem_nil, or_false] at hd
  apply clashDigests_length
  rcases hd with rfl | rfl | rfl | rfl | rfl | rfl | rfl <;> simp [clashDigests]

/-- The computed hashes are digests. -/
theorem clash_computed_length {d : Str} (hd : d ∈ clashComputed) : d.length = 64 := by
  simp only [clashComputed, List.mem_cons, List.not_mem_nil, or_false] at hd
  apply clashDigests_length
  rcases hd with rfl | rfl | rfl | rfl <;> simp [clashDigests]

/-- The computed hashes of the seven nodes. -/
theorem clash_computed :
    computed 2 clashComputed 1 = clashRoot' ∧ computed 2 clashComputed 2 = digestAA ∧
    computed 2 clashComputed 3 = clashRight' ∧ computed 2 clashComputed 4 = digestA ∧
    computed 2 clashComputed 5 = digestA ∧ computed 2 clashComputed 6 = digestAA ∧
    computed 2 clashComputed 7 = digestB := by
  have h₄ : computed 2 clashComputed 4 = digestA := computed_leaf (by decide)
  have h₅ : computed 2 clashComputed 5 = digestA := computed_leaf (by decide)
  have h₆ : computed 2 clashComputed 6 = digestAA := computed_leaf (by decide)
  have h₇ : computed 2 clashComputed 7 = digestB := computed_leaf (by decide)
  have hlabels := @computed_labels_append 2 clashComputed (by decide) fun _ => clash_computed_length
  obtain ⟨_, _, hleft, _, _, hright, hroot⟩ := clash_each
  have h₂ : computed 2 clashComputed 2
      = Fips180.sha256Hex (computed 2 clashComputed 4 ++ computed 2 clashComputed 5) :=
    hlabels 2 (by decide)
  have h₃ : computed 2 clashComputed 3
      = Fips180.sha256Hex (computed 2 clashComputed 6 ++ computed 2 clashComputed 7) :=
    hlabels 3 (by decide)
  have h₁ : computed 2 clashComputed 1
      = Fips180.sha256Hex (computed 2 clashComputed 2 ++ computed 2 clashComputed 3) :=
    hlabels 1 (by decide)
  rw [h₄, h₅, hleft] at h₂
  rw [h₆, h₇, hright] at h₃
  rw [h₂, h₃, hroot] at h₁
  exact ⟨h₁, h₂, h₃, h₄, h₅, h₆, h₇⟩

theorem clash_agree : Agree (computed 2 clashComputed) (expected clashHashes clashChunks) 6 ∧
    Agree (computed 2 clashComputed) (expected clashHashes clashChunks) 2 ∧
    ¬ Agree (computed 2 clashComputed) (expected clashHashes clashChunks) 3 ∧
    ¬ Agree (computed 2 clashComputed) (expected clashHashes clashChunks) 1 := by
  obtain ⟨e₁, e₂, e₃, _, _, e₆, _⟩ := clash_expected
  obtain ⟨c₁, c₂, c₃, _, _, c₆, _⟩ := clash_computed
  refine ⟨?_, ?_, ?_, ?_⟩
  · rw [Agree, e₆, c₆]
  · rw [Agree, e₂, c₂]
  · rw [Agree, e₃, c₃]
    exact clashDigests_ne (i := 3) (j := 5) (by decide)
  · rw [Agree, e₁, c₁]
    exact clashDigests_ne (i := 4) (j := 6) (by decide)

/-- The minimal nodes: the first two chunks' parent, and the third chunk's leaf. -/
theorem clash_topmost :
    2 ∈ topmost 2 (Agree (computed 2 clashComputed) (expected clashHashes clashChunks)) ∧
    6 ∈ topmost 2 (Agree (computed 2 clashComputed) (expected clashHashes clashChunks)) := by
  obtain ⟨h₆, h₂, h₃, h₁⟩ := clash_agree
  refine ⟨mem_topmost.mpr ⟨by decide, h₂, ?_⟩, mem_topmost.mpr ⟨by decide, h₆, ?_⟩⟩
  · intro v hv hne
    rcases (above_child_iff (n := 1) (b := 0) (by omega) hv.1).mp hv with h | h
    · exact absurd h hne
    · obtain rfl : v = 1 := Nat.le_antisymm h.le h.1
      exact h₁
  · intro v hv hne
    rcases (above_child_iff (n := 3) (b := 0) (by omega) hv.1).mp hv with h | h
    · exact absurd h hne
    · rcases (above_child_iff (n := 1) (b := 1) (by omega) hv.1).mp h with rfl | h
      · exact h₃
      · obtain rfl : v = 1 := Nat.le_antisymm h.le h.1
        exact h₁

/-- The strings hashed for inner nodes, and the contents, are among `clashInputs`. -/
theorem clash_inputs {label : Nat → Str} {x : Str}
    (h : label 2 ++ label 3 ∈ clashInputs ∧ label 4 ++ label 5 ∈ clashInputs ∧
      label 6 ++ label 7 ∈ clashInputs) (hx : x ∈ inputs (· ++ ·) 2 label) : x ∈ clashInputs := by
  obtain ⟨n, hn, rfl⟩ := hx
  have h1 := hn.1
  have h2 := hn.2
  obtain rfl | rfl | rfl : n = 1 ∨ n = 2 ∨ n = 3 := by omega
  · exact h.1
  · exact h.2.1
  · exact h.2.2

/-- The hypotheses of the agreement hold of `clash`, with the data file's strings taken in as well. -/
theorem clash_tree {m' : Mem} {root : Nat} {node : Nat → Nat}
    (hb : Built 2 (computed 2 clashComputed) (expected clashHashes clashChunks) Mem.empty m' root node) :
    Consistent 2 (m'.expectedAt root) ∧
    Set.InjOn Fips180.sha256Hex
      ({x | x ∈ clashContents} ∪ {x | x ∈ clashData} ∪ concatenations 2 (m'.computedAt root) ∪
        concatenations 2 (m'.expectedAt root)) := by
  obtain ⟨e₁, e₂, e₃, e₄, e₅, e₆, e₇⟩ := clash_expected
  obtain ⟨c₁, c₂, c₃, c₄, c₅, c₆, c₇⟩ := clash_computed
  obtain ⟨_, _, hleft, hright, hroot, _, _⟩ := clash_each
  have hexp : ∀ n, IsNode 2 n → m'.expectedAt root n = some _ := fun n hn => hb.expectedAt hn
  have hcomp : ∀ n, IsNode 2 n → m'.computedAt root n = some _ := fun n hn => hb.computedAt hn
  constructor
  · intro n hn
    have h1 := hn.1
    have h2 := hn.2
    refine ⟨_, _, hexp _ hn.left, hexp _ hn.right, (hexp n hn.isNode).trans (congrArg some ?_)⟩
    obtain rfl | rfl | rfl : n = 1 ∨ n = 2 ∨ n = 3 := by omega
    · rw [e₁, e₂, e₃, hroot]
    · rw [e₂, e₄, e₅, hleft]
    · rw [e₃, e₆, e₇, hright]
  · rw [concatenations_eq_inputs hexp, concatenations_eq_inputs hcomp]
    apply clash_injOn.mono
    rintro x (((hx | hx) | hx) | hx)
    · have hmem : x ∈ clashContents := hx
      simp only [clashContents, List.mem_cons, List.not_mem_nil, or_false] at hmem
      rcases hmem with rfl | rfl | rfl | rfl <;> simp [clashInputs]
    · have hmem : x ∈ clashData := hx
      simp only [clashData, List.mem_cons, List.not_mem_nil, or_false] at hmem
      rcases hmem with rfl | rfl | rfl | rfl <;> simp [clashInputs]
    · refine clash_inputs ?_ hx
      rw [c₂, c₃, c₄, c₅, c₆, c₇]
      simp [clashInputs]
    · refine clash_inputs ?_ hx
      rw [e₂, e₃, e₄, e₅, e₆, e₇]
      simp [clashInputs]

/-- **The query for the third chunk's hash**, which is emitted for the third chunk's leaf, returns the
    hashes of the first two chunks. -/
theorem hashesOf_leaf_taken_for_inner :
    clash.Perfect 2 clashHashes clashChunks ∧
    clashChunks.map ChunkInfo.hashvalue = clashContents.map Fips180.sha256Hex ∧
    clashComputed = clashData.map Fips180.sha256Hex ∧
    ∃ m' root min qry,
      Settles (fun fuel => buildTree fuel Mem.empty clash (.ok (some clashComputed)))
        (.ok (m', { clash with tree := some root })) ∧
      Consistent 2 (m'.expectedAt root) ∧
      Set.InjOn Fips180.sha256Hex
        ({x | x ∈ clashContents} ∪ {x | x ∈ clashData} ∪ concatenations 2 (m'.computedAt root) ∪
          concatenations 2 (m'.expectedAt root)) ∧
      Settles (fun fuel => bpkgGetMinCompletedHashes fuel m' { clash with tree := some root })
        (.ok min) ∧
      min.Emits m' root 6 digestAA ∧
      Settles (fun fuel => bpkgGetAllChunkHashesFromHash fuel m' { clash with tree := some root }
        digestAA) (.ok qry) ∧
      qry.hashes = [digestA, digestA] ∧
      (leavesUnder 2 6).map (m'.expectedAt root) = [some digestAA] := by
  obtain ⟨ha, hlast, hleft, _, _, _, _⟩ := clash_each
  obtain ⟨e₁, e₂, e₃, e₄, e₅, e₆, e₇⟩ := clash_expected
  have hlen : clashComputed.length = 2 ^ 2 := rfl
  obtain ⟨m', node, hb, hbuild⟩ := clash_perfect.built hlen Mem.empty
  obtain ⟨hcons, hinj⟩ := clash_tree hb
  have hmin := bpkgGetMinCompletedHashes_settles { clash with tree := some Mem.empty.nodes.next }
    hb.labelled rfl clash_perfect.capacity
  -- the first node with the hash of the third chunk is the inner node 2
  have hmatch : (expected clashHashes clashChunks 2).take 64 = digestAA.take 64 := by rw [e₂]
  have hfirst : ∀ w, IsNode 2 w → w < 2 →
      (expected clashHashes clashChunks w).take 64 ≠ digestAA.take 64 := by
    intro w hw hlt
    obtain rfl : w = 1 := by have := hw.1; omega
    rw [e₁]
    exact clashDigests_ne (i := 4) (j := 2) (by decide)
  have hfind := bpkgGetAllChunkHashesFromHash_settles { clash with tree := some Mem.empty.nodes.next }
    hb.labelled rfl clash_perfect.capacity (by decide) hmatch hfirst
  refine ⟨clash_perfect, ?_, ?_, m', _, _, _, hbuild, hcons, hinj, hmin, ?_, hfind, ?_, ?_⟩
  · simp only [clashChunks, clashContents, List.map_cons, List.map_nil, ha, hleft]
  · simp only [clashComputed, clashData, List.map_cons, List.map_nil, ha, hlast, hleft]
  · exact (hb.emits_iff (fun _ => expected_length_le) (fun w hw => (mem_topmost.mp hw).1)
      (by decide)).mpr ⟨clash_topmost.2, e₆.symm⟩
  · show ([4, 5].map fun w => (expected clashHashes clashChunks w).take 64) = _
    rw [List.map_cons, List.map_cons, List.map_nil, e₄, e₅]
    exact congrArg (fun d => [d, d]) (clashDigests_take 0)
  · show [m'.expectedAt Mem.empty.nodes.next 6] = _
    rw [hb.expectedAt (by decide), e₆]

/-- For the node above the first two chunks the answer is right. -/
theorem hashesOf_min_completed_clash :
    ∃ m' root min qry,
      Settles (fun fuel => buildTree fuel Mem.empty clash (.ok (some clashComputed)))
        (.ok (m', { clash with tree := some root })) ∧
      Settles (fun fuel => bpkgGetMinCompletedHashes fuel m' { clash with tree := some root })
        (.ok min) ∧
      min.Emits m' root 2 digestAA ∧
      Settles (fun fuel => bpkgGetAllChunkHashesFromHash fuel m' { clash with tree := some root }
        digestAA) (.ok qry) ∧
      qry.hashes.map some = (leavesUnder 2 2).map (m'.expectedAt root) := by
  obtain ⟨ha, _, hleft, _, _, _, _⟩ := clash_each
  obtain ⟨e₁, e₂, e₃, e₄, e₅, e₆, e₇⟩ := clash_expected
  have hlen : clashComputed.length = 2 ^ 2 := rfl
  have hcontents : clashChunks.map ChunkInfo.hashvalue = clashContents.map Fips180.sha256Hex := by
    simp only [clashChunks, clashContents, List.map_cons, List.map_nil, ha, hleft]
  obtain ⟨m', root, hbuild, hagree⟩ := hashesOf_min_completed clash_perfect hlen hcontents Mem.empty
  obtain ⟨m'', node, hb, hbuild'⟩ := clash_perfect.built hlen Mem.empty
  obtain ⟨rfl, htree⟩ := Prod.mk.inj (Except.ok.inj (hbuild.unique hbuild'))
  obtain rfl : root = Mem.empty.nodes.next := Option.some.inj (congrArg BpkgObj.tree htree)
  obtain ⟨hcons, hinj⟩ := clash_tree hb
  have hinj' := hinj.mono (Set.union_subset_union_left _
    (Set.subset_union_left.trans Set.subset_union_left))
  obtain ⟨min, hmin, h⟩ := hagree hcons hinj'
  have hmin' := bpkgGetMinCompletedHashes_settles { clash with tree := some Mem.empty.nodes.next }
    hb.labelled rfl clash_perfect.capacity
  obtain rfl := Except.ok.inj (hmin.unique hmin')
  have hemits := (hb.emits_iff (fun _ => expected_length_le) (fun w hw => (mem_topmost.mp hw).1)
    (by decide)).mpr ⟨clash_topmost.1, e₂.symm⟩
  -- the content of the first chunk has one character, and is no concatenation
  have hplain : bytes "a" ∉ concatenations 2 (m'.expectedAt Mem.empty.nodes.next) := by
    intro hmem
    rw [concatenations_eq_inputs fun n hn => hb.expectedAt hn] at hmem
    obtain ⟨w, hw, hx⟩ := hmem
    have hlen₁ := @expected_length 2 (2 * w) clashHashes clashChunks (by decide)
      (fun _ => clash_listed_length) hw.left
    have hlen₂ := congrArg List.length hx
    rw [List.length_append, hlen₁] at hlen₂
    have hone : (bytes "a").length = 1 := rfl
    omega
  have hleaf : IsLeaf 2 4 := by decide
  have hfour : Above 2 4 := (above_leaf_iff hleaf (by omega)).mpr (by decide)
  obtain ⟨qry, hqry, hres⟩ := h 2 digestAA (by decide) hemits
    (Or.inr ⟨4, bytes "a", hleaf, hfour, rfl, hplain⟩)
  exact ⟨m', _, _, qry, hbuild, hmin, hemits, hqry, hres⟩

end Btide
