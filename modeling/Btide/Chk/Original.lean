import Btide.Chk.Completed
import Btide.Chk.HashesOf
import Btide.Chk.Pkgmain
import Btide.Theory.Fingerprint

/-!
# `Chk.Original` — the data file compared with the original

What the checker is for. A package is made from some data (`Describes`): its hashes are those of a
Merkle tree over the data's chunks. The checker never sees these data, only the hashes and a data file
that may be incomplete or wrong; still, once it answers (`Answerable`: among other things the file is
there and not empty, and there are two chunks), and unless two of the strings hashed collide, what it
prints says where the file has the bytes of the original. `-chunk_check` lists the chunks in which it
does, and `-min_hashes` the topmost nodes with nothing but such chunks below them (`pkgmain_compares`).
When the chunks cover the data without a gap (`Tiles`), `-get_root` prints the first of the listed hashes,
and `-chunk_check` all chunks, just if the file is the original (`pkgmain_detects`).

The file is read through a mapping, which goes on with zeros up to the end of the last page. So a chunk
behind the end of the file counts as present if the original has zeros there.
-/

namespace Btide

open LevelOrder

/-! ## Packages made from data -/

/-- What the data hold for the chunk of the leaf `n`. -/
def block (k : Nat) (cs : List ChunkInfo) (data : Str) (n : Nat) : Str :=
  (cs.map (chunkBytes data)).getD (n - 2 ^ k) []

/-- The package with the hashes `hs` and the chunks `cs` has been made from `orig`. -/
structure Describes (k : Nat) (hs : List Str) (cs : List ChunkInfo) (orig : Str) : Prop where
  chunks : cs.length = 2 ^ k
  hashes : hs.length + 1 = 2 ^ k
  fingerprint : Fingerprint Fips180.sha256Hex (· ++ ·) k (block k cs orig) (expected hs cs)

/-- No two of the strings hashed for the original and for the contents of the data file collide. -/
def NoCollision (pageSize k : Nat) (hs : List Str) (cs : List ChunkInfo) (orig data : Str) : Prop :=
  Set.InjOn Fips180.sha256Hex
    (hashed (· ++ ·) k (block k cs (mapping pageSize data)) (computed k (fileHashes pageSize data cs)) ∪
      hashed (· ++ ·) k (block k cs orig) (expected hs cs))

section Block

variable {pageSize k n : Nat} {cs : List ChunkInfo} {data data' : Str}

theorem block_chunk {i : Nat} (hi : i < cs.length) :
    block k cs data (2 ^ k + i) = chunkBytes data cs[i] := by
  rw [block, Nat.add_sub_cancel_left, List.getD_eq_getElem _ _ (by rwa [List.length_map]),
    List.getElem_map]

/-- The leaves are the chunks. -/
theorem exists_chunk (hcs : cs.length = 2 ^ k) (hn : IsLeaf k n) :
    ∃ i, i < cs.length ∧ n = 2 ^ k + i := by
  have hpow := Nat.pow_succ 2 k
  have hlo := hn.1
  have hhi := hn.2
  exact ⟨n - 2 ^ k, by omega, by omega⟩

theorem isLeaf_chunk (hcs : cs.length = 2 ^ k) {i : Nat} (hi : i < cs.length) :
    IsLeaf k (2 ^ k + i) := by
  have hpow := Nat.pow_succ 2 k
  exact ⟨Nat.le_add_right _ _, by omega⟩

/-- The root is over all chunks. -/
theorem intact_chunks (hcs : cs.length = 2 ^ k) :
    Intact k (block k cs data) (block k cs data') 1 ↔
      ∀ c ∈ cs, chunkBytes data c = chunkBytes data' c := by
  rw [intact_root]
  constructor
  · intro h c hc
    obtain ⟨i, hi, rfl⟩ := List.getElem_of_mem hc
    have he := h _ (isLeaf_chunk hcs hi)
    rwa [block_chunk hi, block_chunk hi] at he
  · intro h n hn
    obtain ⟨i, hi, rfl⟩ := exists_chunk hcs hn
    rw [block_chunk hi, block_chunk hi]
    exact h _ (List.getElem_mem hi)

theorem fileHashes_length_mem : ∀ x ∈ fileHashes pageSize data cs, x.length = 64 := by
  intro x hx
  obtain ⟨c, _, rfl⟩ := List.mem_map.mp hx
  exact Fips180.sha256Hex_length _

/-- The computed hashes are the fingerprint of what the data file is mapped to. -/
theorem computed_fingerprint (hcs : cs.length = 2 ^ k) :
    Fingerprint Fips180.sha256Hex (· ++ ·) k (block k cs (mapping pageSize data))
      (computed k (fileHashes pageSize data cs)) := by
  have hlen : 2 ^ k ≤ (fileHashes pageSize data cs).length := by
    rw [fileHashes, List.length_map, hcs]
  refine ⟨computed_labels_append hlen fileHashes_length_mem, fun n hn => ?_⟩
  obtain ⟨i, hi, rfl⟩ := exists_chunk hcs hn
  rw [computed_leaf hn, leafHash, fileHashes, Nat.add_sub_cancel_left,
    List.getD_eq_getElem _ _ (by rwa [List.length_map]), List.getElem_map, block_chunk hi]
  exact List.take_of_length_le (Nat.le_of_eq (Fips180.sha256Hex_length _))

end Block

/-! ## The two labellings -/

namespace Describes

variable {pageSize k n : Nat} {hs : List Str} {cs : List ChunkInfo} {orig data : Str}

theorem log_eq (h : Describes k hs cs orig) : Nat.log 2 cs.length = k := by
  rw [h.chunks, Nat.log_pow (by omega)]

/-- The listed hashes are digests. -/
theorem expected_digest (h : Describes k hs cs orig) (hn : IsNode k n) :
    (expected hs cs n).length = 64 := by
  rcases hn.inner_or_leaf with hin | hleaf
  · rw [h.fingerprint.inner n hin, Fips180.sha256Hex_length]
  · rw [h.fingerprint.leaf n hleaf, Fips180.sha256Hex_length]

/-- The leaf of a chunk has the chunk's hash. -/
theorem expected_chunk (h : Describes k hs cs orig) {i : Nat} (hi : i < cs.length) :
    expected hs cs (2 ^ k + i) = cs[i].hashvalue.take 64 := by
  have hhs := h.hashes
  have hidx : 2 ^ k + i - 1 - hs.length = i := by omega
  rw [expected, listed, List.getD_append_right _ _ _ _ (by omega), hidx,
    List.getD_eq_getElem _ _ (by rwa [List.length_map]), List.getElem_map]

variable (h : Describes k hs cs orig) (hinj : NoCollision pageSize k hs cs orig data)

include h hinj

/-- **The hashes of a node agree just if the data below it are the original ones.** -/
theorem computed_eq_iff (hn : IsNode k n) :
    computed k (fileHashes pageSize data cs) n = expected hs cs n ↔
      Intact k (block k cs (mapping pageSize data)) (block k cs orig) n := by
  have hlen : 2 ^ k ≤ (fileHashes pageSize data cs).length := by
    rw [fileHashes, List.length_map, h.chunks]
  exact (computed_fingerprint h.chunks).eq_iff h.fingerprint pairsApart_append
    (fun n hn => computed_length hlen fileHashes_length_mem hn) (fun n hn => h.expected_digest hn)
    hinj hn

theorem agree_iff (hn : IsNode k n) :
    Agree (computed k (fileHashes pageSize data cs)) (expected hs cs) n ↔
      Intact k (block k cs (mapping pageSize data)) (block k cs orig) n := by
  have hc : (computed k (fileHashes pageSize data cs) n).length ≤ 64 :=
    computed_length_le.resolve_right fun hnot => hnot hn
  rw [← h.computed_eq_iff hinj hn, Agree, List.take_of_length_le expected_length_le,
    List.take_of_length_le hc]
  exact eq_comm

end Describes

/-! ## Chunks that cover the data -/

/-- The chunks follow one another from `start` to `n`. -/
def Tiles : Nat → List ChunkInfo → Nat → Prop
  | start, [], n => start = n
  | start, c :: cs, n =>
    c.offset.toInt = start ∧ 0 ≤ c.size.toInt ∧ Tiles (start + c.size.toInt.toNat) cs n

section Tiles

variable {pageSize n : Nat} {data orig : Str}

theorem Tiles.le : ∀ {cs : List ChunkInfo} {start : Nat}, Tiles start cs n → start ≤ n
  | [], _, h => Nat.le_of_eq h
  | _ :: _, _, ⟨_, _, hrest⟩ => Nat.le_trans (Nat.le_add_right _ _) hrest.le

theorem Tiles.within : ∀ {cs : List ChunkInfo} {start : Nat}, Tiles start cs n →
    ∀ c ∈ cs, c.Within n
  | c :: cs, start, ⟨hoff, hsize, hrest⟩, c', hc' => by
      have hle := hrest.le
      cases hc' with
      | head => exact ⟨by omega, hsize, by omega⟩
      | tail _ hmem => exact hrest.within c' hmem

/-- Their bytes make up the data. -/
theorem Tiles.flatten (hn : n ≤ data.length) :
    ∀ {cs : List ChunkInfo} {start : Nat}, Tiles start cs n →
      (cs.map (chunkBytes data)).flatten = (data.drop start).take (n - start)
  | [], start, h => by
      have hstart : start = n := h
      rw [hstart, Nat.sub_self, List.take_zero]
      rfl
  | c :: cs, start, ⟨hoff, hsize, hrest⟩ => by
      have hle := hrest.le
      have hsplit : n - start = c.size.toInt.toNat + (n - (start + c.size.toInt.toNat)) := by omega
      have hbytes : chunkBytes data c = (data.drop start).take c.size.toInt.toNat := by
        rw [chunkBytes, hoff, Int.toNat_natCast]
      rw [List.map_cons, List.flatten_cons, hrest.flatten hn, hbytes, hsplit, List.take_add,
        List.drop_drop]

/-- A range within the file is read from the file. -/
theorem chunkBytes_mapping {c : ChunkInfo} (h : c.Within data.length) :
    chunkBytes (mapping pageSize data) c = chunkBytes data c := by
  obtain ⟨hoff, hsize, hend⟩ := h
  have hlen : c.size.toInt.toNat ≤ (data.drop c.offset.toInt.toNat).length := by
    rw [List.length_drop]
    omega
  rw [chunkBytes, chunkBytes, mapping, List.drop_append_of_le_length (by omega),
    List.take_append_of_le_length hlen]

/-- **Equal chunks are equal data**, for two files of the length that the chunks cover. -/
theorem Tiles.eq_iff {cs : List ChunkInfo} (h : Tiles 0 cs orig.length)
    (hlen : data.length = orig.length) :
    (∀ c ∈ cs, chunkBytes (mapping pageSize data) c = chunkBytes orig c) ↔ data = orig := by
  constructor
  · intro hall
    have hwithin : ∀ c ∈ cs, chunkBytes data c = chunkBytes orig c := by
      intro c hc
      rw [← hall c hc, chunkBytes_mapping (hlen ▸ h.within c hc)]
    have hdata := h.flatten (Nat.le_of_eq hlen.symm)
    have horig := h.flatten (Nat.le_refl orig.length)
    rw [List.map_congr_left hwithin, horig] at hdata
    simpa [List.take_of_length_le (Nat.le_of_eq hlen)] using hdata.symm
  · rintro rfl c hc
    exact chunkBytes_mapping (h.within c hc)

end Tiles

/-! ## What is printed -/

section Reports

variable {pageSize k : Nat} {hs : List Str} {cs : List ChunkInfo} {orig data : Str}

theorem printed_singleton_inj {x y : Str} (hx : x.length = 64) (hy : y.length = 64) :
    printed [x] = printed [y] ↔ x = y := by
  have hone : ∀ z : Str, z.length = 64 → printed [z] = z ++ bytes "\n" := by
    intro z hz
    simp [printed, SHA256_HEX_LEN, List.take_of_length_le (Nat.le_of_eq hz)]
  rw [hone x hx, hone y hy]
  constructor
  · exact List.append_cancel_right
  · intro he
    rw [he]

theorem printed_length {α : Type} {xs : List α} {f : α → Str} (h : ∀ x ∈ xs, 64 ≤ (f x).length) :
    (printed (xs.map f)).length = xs.length * 65 := by
  induction xs with
  | nil => rfl
  | cons x xs ih =>
      have hx := h x (List.mem_cons_self ..)
      have hrest := ih fun y hy => h y (List.mem_cons_of_mem _ hy)
      rw [printed, List.map_cons, List.flatMap_cons, ← printed, List.length_append, List.length_append,
        hrest, List.length_take, SHA256_HEX_LEN, Nat.min_eq_left hx, List.length_cons]
      show 64 + 1 + xs.length * 65 = (xs.length + 1) * 65
      omega

/-- The first listed hash is that of the root. -/
theorem printed_first (hpos : 0 < hs.length) : printed (hs.take 1) = printed [expected hs cs 1] := by
  obtain ⟨h, rest, rfl⟩ := List.exists_cons_of_length_pos hpos
  simp [printed, expected, listed, SHA256_HEX_LEN]

variable (h : Describes k hs cs orig) (hinj : NoCollision pageSize k hs cs orig data)

include h hinj

/-- `-chunk_check`: the chunks with the original bytes. -/
theorem Describes.chunkCheck :
    printed (report hs cs (fileHashes pageSize data cs) .chunkCheck)
      = printed ((cs.filter fun c =>
          chunkBytes (mapping pageSize data) c = chunkBytes orig c).map ChunkInfo.hashvalue) := by
  have hlist : report hs cs (fileHashes pageSize data cs) .chunkCheck
      = (cs.filter fun c => chunkBytes (mapping pageSize data) c = chunkBytes orig c).map
          fun c => c.hashvalue.take 64 := by
    simp only [report, h.log_eq]
    rw [← h.chunks]
    refine filter_map_range' cs cs.length (fun i hi => ?_) (fun i hi => ?_)
    · refine decide_eq_decide.mpr ?_
      rw [h.chunks, h.agree_iff hinj (isLeaf_chunk h.chunks hi).isNode,
        intact_leaf (isLeaf_chunk h.chunks hi), block_chunk hi, block_chunk hi]
    · rw [h.chunks, h.expected_chunk hi]
  rw [hlist]
  exact printed_take _ ChunkInfo.hashvalue

/-- `-min_hashes`: the topmost nodes over nothing but such chunks. -/
theorem Describes.minHashes :
    report hs cs (fileHashes pageSize data cs) .minHashes
      = (topmost k (Intact k (block k cs (mapping pageSize data)) (block k cs orig))).map
          (expected hs cs) := by
  simp only [report, h.log_eq]
  rw [topmost_congr fun n hn => h.agree_iff hinj hn]

/-- `-get_root`: the first hash of the package, just if all chunks have the original bytes. -/
theorem Describes.getRoot (hpos : 0 < hs.length) :
    printed (report hs cs (fileHashes pageSize data cs) .getRoot) = printed (hs.take 1) ↔
      ∀ c ∈ cs, chunkBytes (mapping pageSize data) c = chunkBytes orig c := by
  have hlen : 2 ^ k ≤ (fileHashes pageSize data cs).length := by
    rw [fileHashes, List.length_map, h.chunks]
  simp only [report, h.log_eq]
  rw [@printed_first hs cs hpos, printed_singleton_inj
    (computed_length hlen fileHashes_length_mem isNode_root) (h.expected_digest isNode_root),
    h.computed_eq_iff hinj isNode_root, intact_chunks h.chunks]

/-- `-chunk_check` lists all chunks just if all of them have the original bytes. -/
theorem Describes.allChunks :
    printed (report hs cs (fileHashes pageSize data cs) .chunkCheck)
        = printed (cs.map ChunkInfo.hashvalue) ↔
      ∀ c ∈ cs, chunkBytes (mapping pageSize data) c = chunkBytes orig c := by
  have hdigest : ∀ c ∈ cs, 64 ≤ c.hashvalue.length := by
    intro c hc
    obtain ⟨i, hi, rfl⟩ := List.getElem_of_mem hc
    have hlen := h.expected_digest (isLeaf_chunk h.chunks hi).isNode
    rw [h.expected_chunk hi, List.length_take] at hlen
    omega
  rw [h.chunkCheck hinj]
  constructor
  · intro he
    -- every chunk listed is a line of 65 characters
    have hlength := congrArg List.length he
    rw [printed_length fun c hc => hdigest c (List.mem_of_mem_filter hc), printed_length hdigest]
      at hlength
    have hall := List.length_filter_eq_length_iff.mp (Nat.eq_of_mul_eq_mul_right (by omega) hlength)
    exact fun c hc => of_decide_eq_true (hall c hc)
  · intro hall
    rw [List.filter_eq_self.mpr fun c hc => decide_eq_true (hall c hc)]

end Reports

/-! ## A package of two bytes

The original is `ab`, and the data file holds `ac`. -/

def digestC : Str := bytes "2e7d2c03a9507ae265ecf5b5356885a53393a2029d241394997265a1a25aefc6"

def digestAB : Str := bytes "62af5c3cb8da3e4f25061e829ebeea5c7513c54949115b1acc225930a90154da"

def digestAC : Str := bytes "3fa57f52dd820e8d57285c06f6bc654f71bff9ac7c673f8dc7ef61568682e96a"

/-- All strings hashed for the two files. -/
def twoBytesInputs : List Str :=
  [bytes "a", bytes "b", bytes "c", digestA ++ digestB, digestA ++ digestC]

def twoBytesChunks : List ChunkInfo := [⟨digestA, 0, 1⟩, ⟨digestB, 1, 1⟩]

def Package.twoBytes : Package where
  identifier := bytes "2b"
  filename := bytes "two"
  size := 2
  hashes := [digestAB]
  chunks := twoBytesChunks
  identifier_ne := by decide
  identifier_length := by decide
  identifier_hex := forall_mem_of_all (by decide)
  filename_ne := by decide
  filename_length := by decide
  filename_word := forall_mem_of_all (by decide)
  size_nonneg := by decide
  hashes_hex := by
    intro h hmem
    rw [List.mem_singleton.mp hmem]
    exact ⟨by decide, forall_mem_of_all (by decide)⟩
  chunks_hex := by
    intro c hmem
    rcases List.mem_pair.mp hmem with rfl | rfl
    · exact ⟨by decide, forall_mem_of_all (by decide)⟩
    · exact ⟨by decide, forall_mem_of_all (by decide)⟩
  chunks_nonneg := by decide
  counts := rfl
  counts_fit := by decide

def twoBytesFiles (data : Str) : Files where
  text := fun _ => some Package.twoBytes.write
  data := fun _ => .present true true data

theorem twoBytes_load (junk : Junk) :
    bpkgLoad junk (some Package.twoBytes.write) = .ok Package.twoBytes.obj := by
  apply Layout.bpkgLoad junk Package.twoBytes.linesOf_write Package.twoBytes.writeLayout_reads
    Package.twoBytes.obj_loadable
  show 7 + ((0 : Nat) : Int) ≤ INT_MAX
  decide

theorem twoBytes_answerable (q : Query) :
    Answerable 4096 Package.twoBytes.obj (.present true true (bytes "ac")) q [digestAB] twoBytesChunks
      (bytes "ac") := by
  have hlen : 2 ≤ (mapping 4096 (bytes "ac")).length := length_le_mapping 4096 (bytes "ac")
  refine ⟨⟨rfl, rfl, by decide, by decide⟩, by decide, rfl, by decide, fun c hc => ?_,
    fun _ => ⟨by decide, by decide⟩⟩
  rcases List.mem_pair.mp hc with rfl | rfl
  · exact Or.inr ⟨by decide, by show (1 : Int) ≤ _; omega, by decide⟩
  · exact Or.inr ⟨by decide, by show (2 : Int) ≤ _; omega, by decide⟩

section TwoBytes

open Fips180

theorem twoBytes_digests :
    twoBytesInputs.map sha256Hex = [digestA, digestB, digestC, digestAB, digestAC] := by
  have heval : sha256Hex = fun x => hex (digest (evalSha256 x)) := funext sha256Hex_eq_eval
  rw [heval]
  decide +kernel

theorem twoBytes_each : sha256Hex (bytes "a") = digestA ∧ sha256Hex (bytes "b") = digestB ∧
    sha256Hex (bytes "c") = digestC ∧ sha256Hex (digestA ++ digestB) = digestAB := by
  have h := twoBytes_digests
  simp only [twoBytesInputs, List.map_cons, List.map_nil, List.cons.injEq, and_true] at h
  exact ⟨h.1, h.2.1, h.2.2.1, h.2.2.2.1⟩

theorem twoBytes_injOn : Set.InjOn sha256Hex {x | x ∈ twoBytesInputs} := by
  have hnodup : (twoBytesInputs.map sha256Hex).Nodup := by
    rw [twoBytes_digests]
    decide +kernel
  intro x hx y hy h
  exact List.inj_on_of_nodup_map hnodup hx hy h

end TwoBytes

theorem isLeaf_one {n : Nat} (h : IsLeaf 1 n) : n = 2 ∨ n = 3 := by
  have hlo := h.1
  have hhi := h.2
  omega

/-- The hashes listed are those of the bytes `a` and `b`. -/
theorem twoBytes_describes : Describes 1 [digestAB] twoBytesChunks (bytes "ab") := by
  obtain ⟨ha, hb, _, hab⟩ := twoBytes_each
  refine ⟨rfl, rfl, fun n hn => ?_, fun n hn => ?_⟩
  · obtain rfl := isInner_one.mp hn
    exact hab.symm
  · rcases isLeaf_one hn with rfl | rfl
    · exact ha.symm
    · exact hb.symm

theorem twoBytes_noCollision :
    NoCollision 4096 1 [digestAB] twoBytesChunks (bytes "ab") (bytes "ac") := by
  have hdesc := twoBytes_describes
  have hfile := @computed_fingerprint 4096 1 twoBytesChunks (bytes "ac") rfl
  obtain ⟨ha, _, hc, _⟩ := twoBytes_each
  have h₂ : IsLeaf 1 2 := by decide
  have h₃ : IsLeaf 1 3 := by decide
  have hb₂ : block 1 twoBytesChunks (mapping 4096 (bytes "ac")) 2 = bytes "a" := by rfl
  have hb₃ : block 1 twoBytesChunks (mapping 4096 (bytes "ac")) 3 = bytes "c" := by rfl
  have hl₂ := hfile.leaf 2 h₂
  have hl₃ := hfile.leaf 3 h₃
  rw [hb₂, ha] at hl₂
  rw [hb₃, hc] at hl₃
  apply twoBytes_injOn.mono
  rintro x ((⟨n, hn, rfl⟩ | ⟨n, hn, rfl⟩) | (⟨n, hn, rfl⟩ | ⟨n, hn, rfl⟩))
  · obtain rfl := isInner_one.mp hn
    show computed 1 _ 2 ++ computed 1 _ 3 ∈ twoBytesInputs
    rw [hl₂, hl₃]
    simp [twoBytesInputs]
  · rcases isLeaf_one hn with rfl | rfl
    · rw [hb₂]
      simp [twoBytesInputs]
    · rw [hb₃]
      simp [twoBytesInputs]
  · obtain rfl := isInner_one.mp hn
    show digestA ++ digestB ∈ twoBytesInputs
    simp [twoBytesInputs]
  · rcases isLeaf_one hn with rfl | rfl
    · show bytes "a" ∈ twoBytesInputs
      simp [twoBytesInputs]
    · show bytes "b" ∈ twoBytesInputs
      simp [twoBytesInputs]

/-! ## The program -/

section Pkgmain

variable {pageSize k : Nat} {junk : Junk} {argv : List Str} {files : Files} {path contents : Str}
  {obj : BpkgObj} {q : Query} {hs : List Str} {cs : List ChunkInfo} {orig data : Str}

/-- **The checker compares the data file with the original**: for a package and a file that it can answer
    about, the bytes of the mapping with those of the data that the package has been made from. -/
theorem pkgmain_compares (hsel : argSelect argv = .ok (some (.query q)))
    (hpath : argv[1]? = some path) (htext : files.text path = some contents)
    (hload : bpkgLoad junk (some contents) = .ok obj)
    (h : Answerable pageSize obj (files.data obj.filename) q hs cs data)
    (hdesc : Describes k hs cs orig) (hinj : NoCollision pageSize k hs cs orig data) :
    ∃ r, Settles (fun fuel => pkgmain fuel pageSize junk argv files) (.ok r) ∧ r.status = 0 ∧
      (q = .chunkCheck → r.output = printed ((cs.filter fun c =>
        chunkBytes (mapping pageSize data) c = chunkBytes orig c).map ChunkInfo.hashvalue)) ∧
      (q = .minHashes → r.output = printed
        ((topmost k (Intact k (block k cs (mapping pageSize data)) (block k cs orig))).map
          (expected hs cs))) ∧
      (q = .getRoot → (r.output = printed (hs.take 1) ↔
        ∀ c ∈ cs, chunkBytes (mapping pageSize data) c = chunkBytes orig c)) := by
  obtain ⟨mem, _, hrun⟩ := pkgmain_settles hsel hpath htext hload h
  have htwo := h.two
  have hchunks := hdesc.chunks
  have hhashes := hdesc.hashes
  refine ⟨_, hrun, rfl, ?_, ?_, ?_⟩
  · rintro rfl
    exact hdesc.chunkCheck hinj
  · rintro rfl
    exact congrArg printed (hdesc.minHashes hinj)
  · rintro rfl
    exact hdesc.getRoot hinj (by omega)

theorem pkgmain_compares_twoBytes :
    ∃ r, Settles (fun fuel => pkgmain fuel 4096 default (commandLine (bytes "-chunk_check"))
        (twoBytesFiles (bytes "ac"))) (.ok r) ∧ r.status = 0 ∧
      (Query.chunkCheck = .chunkCheck → r.output = printed ((twoBytesChunks.filter fun c =>
        chunkBytes (mapping 4096 (bytes "ac")) c = chunkBytes (bytes "ab") c).map
          ChunkInfo.hashvalue)) ∧
      (Query.chunkCheck = .minHashes → r.output = printed
        ((topmost 1 (Intact 1 (block 1 twoBytesChunks (mapping 4096 (bytes "ac")))
          (block 1 twoBytesChunks (bytes "ab")))).map (expected [digestAB] twoBytesChunks))) ∧
      (Query.chunkCheck = .getRoot → (r.output = printed ([digestAB].take 1) ↔
        ∀ c ∈ twoBytesChunks,
          chunkBytes (mapping 4096 (bytes "ac")) c = chunkBytes (bytes "ab") c)) :=
  pkgmain_compares (by decide) rfl rfl (twoBytes_load default)
    (twoBytes_answerable .chunkCheck) twoBytes_describes twoBytes_noCollision

/-- **The checker detects every change.** For a package whose chunks cover the original, and a data file of
    the same length that can be answered about, the complete answer to `-get_root` or to `-chunk_check` is
    printed for the original only. -/
theorem pkgmain_detects (hsel : argSelect argv = .ok (some (.query q)))
    (hpath : argv[1]? = some path) (htext : files.text path = some contents)
    (hload : bpkgLoad junk (some contents) = .ok obj)
    (h : Answerable pageSize obj (files.data obj.filename) q hs cs data)
    (hdesc : Describes k hs cs orig) (hinj : NoCollision pageSize k hs cs orig data)
    (htiles : Tiles 0 cs orig.length) (hlen : data.length = orig.length) :
    ∃ r, Settles (fun fuel => pkgmain fuel pageSize junk argv files) (.ok r) ∧
      (q = .getRoot → (r.output = printed (hs.take 1) ↔ data = orig)) ∧
      (q = .chunkCheck → (r.output = printed (cs.map ChunkInfo.hashvalue) ↔ data = orig)) := by
  obtain ⟨mem, _, hrun⟩ := pkgmain_settles hsel hpath htext hload h
  have htwo := h.two
  have hchunks := hdesc.chunks
  have hhashes := hdesc.hashes
  refine ⟨_, hrun, ?_, ?_⟩
  · rintro rfl
    exact (hdesc.getRoot hinj (by omega)).trans (htiles.eq_iff hlen)
  · rintro rfl
    exact (hdesc.allChunks hinj).trans (htiles.eq_iff hlen)

theorem pkgmain_detects_twoBytes :
    ∃ r, Settles (fun fuel => pkgmain fuel 4096 default (commandLine (bytes "-get_root"))
        (twoBytesFiles (bytes "ac"))) (.ok r) ∧
      (Query.getRoot = .getRoot →
        (r.output = printed ([digestAB].take 1) ↔ bytes "ac" = bytes "ab")) ∧
      (Query.getRoot = .chunkCheck →
        (r.output = printed (twoBytesChunks.map ChunkInfo.hashvalue) ↔ bytes "ac" = bytes "ab")) :=
  pkgmain_detects (by decide) rfl rfl (twoBytes_load default)
    (twoBytes_answerable .getRoot) twoBytes_describes twoBytes_noCollision
    ⟨rfl, by decide, rfl, by decide, rfl⟩ (by decide)

end Pkgmain

end Btide
