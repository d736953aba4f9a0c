import Mathlib.Data.List.Induction
import Btide.Chk.Obj
import Btide.Crypt.Stream

/-!
# `Tree.HashChunk` — hashing the data file (`hashChunk` in `tree/merkletree.c`)

The environment of `hashChunk` is the state of the data file and the size of a memory page: `mmap` gives
access to the file's bytes and, in the last page, to zero bytes after them. A range is hashed in slices
of at most 1024 bytes; `hashRange_absorbed` follows the slices with the invariant of `Crypt.Stream`, so
each computed hash is the digest of the whole range (`hashChunk_ok`).
-/

namespace Btide

/-! ## Files -/

/-- The data file named by a package. -/
inductive DataFile
  /-- No such file; whether it can be created, and whether a new file can be given its size. -/
  | absent (create resize : Bool)
  | unreadable
  /-- A file that can be opened; whether `fstat` and `mmap` succeed, and its contents. -/
  | present (stat map : Bool) (contents : Str)
deriving DecidableEq

/-- The bytes that can be read through a mapping: those of the file, and zeros up to the end of the last
    page. -/
def mapping (pageSize : Nat) (contents : Str) : Str :=
  contents ++ List.replicate ((pageSize - contents.length % pageSize) % pageSize) 0

theorem length_le_mapping (pageSize : Nat) (contents : Str) :
    contents.length ≤ (mapping pageSize contents).length := by
  rw [mapping, List.length_append]
  exact Nat.le_add_right _ _

/-- The `n` bytes at `contents + offset`. -/
def readAt (contents : Str) (offset : Int) (n : Nat) : Run Str :=
  if offset < 0 then .error .outOfBounds else readBytes (contents.drop offset.toNat) n

/-! ## `hashChunk` -/

/-- The inner loop: hash `datasize` bytes from `contents + offset` on. -/
def hashRange (contents : Str) (data : Sha256ComputeData) (offset datasize : Int) :
    Run Sha256ComputeData :=
  if _ : 0 < datasize then do
    let readsize := if datasize < 1024 then datasize else 1024
    -- `sha256_update` reads the slice
    let slice ← readAt contents offset readsize.toNat
    let data ← sha256Update data slice readsize.toNat.toUInt32
    let offset ← cInt (offset + readsize)
    hashRange contents data offset (datasize - readsize)
  else .ok data
termination_by datasize.toNat
decreasing_by
  split <;> omega

def hashOne (contents : Str) (bpkg : BpkgObj) (i : Nat) : Run Str := do
  let c ← index bpkg.chunks i
  let data ← hashRange contents (sha256ComputeDataInit .local) c.offset.toInt c.size.toInt
  let data ← sha256Finalize data
  .ok (sha256OutputHex data)

/-- `hashChunk`: the computed hashes or, after a message, NULL. -/
def hashChunk (pageSize : Nat) (file : DataFile) (bpkg : BpkgObj) : Run (Except Str (List Str)) :=
  match file with
  | .absent _ _ => .ok (.error (bytes "Failed to open file\n"))
  | .unreadable => .ok (.error (bytes "Failed to open file\n"))
  | .present false _ _ => .ok (.error (bytes "Failed to retrieve information\n"))
  | .present true map contents =>
    -- an empty file cannot be mapped
    if map ∧ contents ≠ [] then do
      let hashes ← (List.range bpkg.nchunks.toInt.toNat).mapM (hashOne (mapping pageSize contents) bpkg)
      .ok (.ok hashes)
    else .ok (.error (bytes "Failed to map file into memory\n"))

/-! ## The ranges -/

section Ranges

variable {contents m : Str} {data : Sha256ComputeData}

theorem readAt_ok {offset n : Nat} (h : offset + n ≤ contents.length) :
    readAt contents offset n = .ok ((contents.drop offset).take n) := by
  have hlen : n ≤ (contents.drop offset).length := by
    rw [List.length_drop]
    omega
  rw [readAt, if_neg (by omega), Int.toNat_natCast, readBytes, if_pos hlen]

theorem readAt_in_bounds {slice : Str} {offset : Int} {n : Nat}
    (h : readAt contents offset n = .ok slice) (hn : 0 < n) :
    0 ≤ offset ∧ offset + n ≤ contents.length := by
  unfold readAt at h
  split at h
  · cases h
  · unfold readBytes at h
    split at h
    · next hlen =>
        rw [List.length_drop] at hlen
        omega
    · cases h

/-- **The slices of a range make up the range.** -/
theorem hashRange_absorbed (n : Nat) : ∀ (offset : Nat) (data : Sha256ComputeData) (m : Str),
    offset + n ≤ contents.length → (offset + n : Int) ≤ INT_MAX → Absorbed data m →
    ∃ data', hashRange contents data offset n = .ok data' ∧
      Absorbed data' (m ++ (contents.drop offset).take n) := by
  induction n using Nat.strongRecOn with
  | ind n ih =>
      intro offset data m hin hmax habs
      rw [hashRange]
      by_cases hn : 0 < n
      · -- one slice of `r` bytes, then the rest
        obtain ⟨r, hr⟩ : ∃ r : Nat, (if (n : Int) < 1024 then (n : Int) else 1024) = r ∧ 0 < r ∧
            r ≤ n ∧ r ≤ 1024 := by
          by_cases hlt : n < 1024
          · exact ⟨n, by rw [if_pos (by omega)], hn, Nat.le_refl n, by omega⟩
          · exact ⟨1024, by rw [if_neg (by omega)]; rfl, by omega, by omega, Nat.le_refl _⟩
        obtain ⟨hread, hr0, hrn, hr1⟩ := hr
        have hlen : ((contents.drop offset).take r).length = r := by
          rw [List.length_take, List.length_drop]
          omega
        obtain ⟨data₁, hrun₁, habs₁⟩ := @sha256Update_absorbed _ _ ((contents.drop offset).take r) habs
          (by omega)
        rw [hlen] at hrun₁
        -- the end of the range is an `int`, so the sums before it are
        have hnext : cInt ((offset : Int) + (r : Int)) = .ok ((offset + r : Nat) : Int) :=
          cInt_ok (by unfold INT_MIN; omega) (by omega)
        have hrest : (n : Int) - (r : Int) = ((n - r : Nat) : Int) := by omega
        obtain ⟨data₂, hrun₂, habs₂⟩ := ih (n - r) (by omega) (offset + r) data₁ _ (by omega)
          (by omega) habs₁
        refine ⟨data₂, ?_, ?_⟩
        · rw [dif_pos (by omega), hread]
          show (readAt contents offset r >>= fun slice => _) = _
          rw [readAt_ok (by omega), Run.ok_bind]
          show (sha256Update data _ r.toUInt32 >>= fun data => _) = _
          rw [hrun₁, Run.ok_bind, hnext, Run.ok_bind, hrest, hrun₂]
        · have hsplit : (contents.drop offset).take n
              = (contents.drop offset).take r ++ (contents.drop (offset + r)).take (n - r) := by
            rw [← List.drop_drop, ← List.take_add, Nat.add_sub_cancel' hrn]
          rw [hsplit, ← List.append_assoc]
          exact habs₂
      · have hzero : n = 0 := by omega
        refine ⟨data, by rw [dif_neg (by omega)], ?_⟩
        rwa [hzero, List.take_zero, List.append_nil]

end Ranges

/-! ## The file -/

/-- The elements of a list, read one after the other. -/
theorem mapM_range {α β : Type} {f : Nat → Run β} {g : α → β} (xs : List α)
    (h : ∀ i (hi : i < xs.length), f i = .ok (g xs[i])) :
    (List.range xs.length).mapM f = .ok (xs.map g) := by
  induction xs using List.reverseRecOn with
  | nil => rfl
  | append_singleton xs x ih =>
      have hrest : ∀ i (hi : i < xs.length), f i = .ok (g xs[i]) := by
        intro i hi
        have hi' : i < (xs ++ [x]).length := by simp; omega
        rw [h i hi', List.getElem_append_left hi]
      have hlast : f xs.length = .ok (g x) := by
        have hi' : xs.length < (xs ++ [x]).length := by simp
        rw [h xs.length hi']
        simp
      rw [List.length_append, List.length_singleton, List.range_succ, List.mapM_append, ih hrest,
        List.mapM_cons, hlast, List.mapM_nil, List.map_append]
      rfl

theorem mapM_eq_ok {α β : Type} {f : α → Run β} {xs : List α} {ys : List β}
    (h : xs.mapM f = .ok ys) : ys.length = xs.length ∧ ∀ x ∈ xs, ∃ y, f x = .ok y := by
  induction xs generalizing ys with
  | nil =>
      cases h
      exact ⟨rfl, fun x hx => by cases hx⟩
  | cons x xs ih =>
      rw [List.mapM_cons] at h
      obtain ⟨y, hy, h⟩ := Run.bind_eq_ok.mp h
      obtain ⟨zs, hzs, h⟩ := Run.bind_eq_ok.mp h
      cases h
      obtain ⟨hlen, heach⟩ := ih hzs
      refine ⟨by rw [List.length_cons, List.length_cons, hlen], fun w hw => ?_⟩
      cases hw with
      | head => exact ⟨y, hy⟩
      | tail _ hw => exact heach w hw

/-- The bytes of a chunk in a file. -/
def chunkBytes (contents : Str) (c : ChunkInfo) : Str :=
  (contents.drop c.offset.toInt.toNat).take c.size.toInt.toNat

/-- The chunk's range is not negative and ends within the first `n` bytes. -/
def ChunkInfo.Within (c : ChunkInfo) (n : Nat) : Prop :=
  0 ≤ c.offset.toInt ∧ 0 ≤ c.size.toInt ∧ c.offset.toInt + c.size.toInt ≤ n

/-- The range can be hashed: nothing is read of a range without bytes, and any other lies within the first
    `n` bytes and ends at an `int`. -/
def ChunkInfo.Hashable (c : ChunkInfo) (n : Nat) : Prop :=
  c.size.toInt ≤ 0 ∨ (0 ≤ c.offset.toInt ∧ c.offset.toInt + c.size.toInt ≤ n ∧
    c.offset.toInt + c.size.toInt ≤ INT_MAX)

instance (c : ChunkInfo) (n : Nat) : Decidable (c.Hashable n) :=
  inferInstanceAs (Decidable (_ ∨ _))

theorem ChunkInfo.Within.hashable {c : ChunkInfo} {n : Nat} (h : c.Within n)
    (hmax : c.offset.toInt + c.size.toInt ≤ INT_MAX) : c.Hashable n :=
  Or.inr ⟨h.1, h.2.2, hmax⟩

theorem hashRange_empty {contents : Str} {data : Sha256ComputeData} {offset datasize : Int}
    (h : datasize ≤ 0) : hashRange contents data offset datasize = .ok data := by
  rw [hashRange, dif_neg (by omega)]

/-- The loop over the slices, for any range that can be hashed. -/
theorem hashRange_chunk {contents : Str} {c : ChunkInfo} (h : c.Hashable contents.length) :
    ∃ data, hashRange contents (sha256ComputeDataInit .local) c.offset.toInt c.size.toInt = .ok data ∧
      Absorbed data (chunkBytes contents c) := by
  by_cases hsize : c.size.toInt ≤ 0
  · have hbytes : chunkBytes contents c = [] := by
      rw [chunkBytes, Int.toNat_of_nonpos hsize, List.take_zero]
    refine ⟨_, hashRange_empty hsize, ?_⟩
    rw [hbytes]
    exact sha256ComputeDataInit_absorbed .local
  · rcases h with hempty | ⟨hoff, hend, hmax⟩
    · exact absurd hempty hsize
    obtain ⟨offset, ho⟩ := Int.eq_ofNat_of_zero_le hoff
    obtain ⟨n, hn⟩ := Int.eq_ofNat_of_zero_le (by omega : 0 ≤ c.size.toInt)
    rw [ho, hn] at hend hmax
    obtain ⟨data, hrun, habs⟩ := @hashRange_absorbed contents n offset _ [] (by omega) hmax
      (sha256ComputeDataInit_absorbed .local)
    rw [ho, hn]
    refine ⟨data, hrun, ?_⟩
    rwa [chunkBytes, ho, hn]

/-- A loop that reaches its end has read only what is there. -/
theorem hashRange_in_bounds {contents : Str} (n : Nat) : ∀ (offset : Int) (data data' : Sha256ComputeData),
    0 < n → hashRange contents data offset n = .ok data' →
    0 ≤ offset ∧ offset + n ≤ contents.length ∧ offset + n ≤ INT_MAX := by
  induction n using Nat.strongRecOn with
  | ind n ih =>
      intro offset data data' hn hrun
      rw [hashRange, dif_pos (by omega)] at hrun
      obtain ⟨slice, hslice, hrun⟩ := Run.bind_eq_ok.mp hrun
      obtain ⟨data₁, _, hrun⟩ := Run.bind_eq_ok.mp hrun
      obtain ⟨next, hnext, hrun⟩ := Run.bind_eq_ok.mp hrun
      obtain ⟨rfl, _, hmax⟩ := cInt_eq_ok.mp hnext
      obtain ⟨r, hread, hr0, hrn⟩ : ∃ r : Nat, (if (n : Int) < 1024 then (n : Int) else 1024) = r ∧
          0 < r ∧ r ≤ n := by
        by_cases hlt : n < 1024
        · exact ⟨n, by rw [if_pos (by omega)], hn, Nat.le_refl n⟩
        · exact ⟨1024, by rw [if_neg (by omega)]; rfl, by omega, by omega⟩
      rw [hread] at hslice hmax hrun
      obtain ⟨hoff, hend⟩ := readAt_in_bounds hslice hr0
      by_cases hlast : r = n
      · rw [hlast] at hend hmax
        exact ⟨hoff, hend, hmax⟩
      · have hrest : (n : Int) - (r : Int) = ((n - r : Nat) : Int) := by omega
        rw [hrest] at hrun
        obtain ⟨_, hend', hmax'⟩ := ih (n - r) (by omega) _ _ _ (by omega) hrun
        exact ⟨hoff, by omega, by omega⟩

theorem hashOne_ok {contents : Str} {bpkg : BpkgObj} {cs : List ChunkInfo} {i : Nat}
    (hchunks : bpkg.chunks = some cs) (hi : i < cs.length) (h : cs[i].Hashable contents.length) :
    hashOne contents bpkg i = .ok (Fips180.sha256Hex (chunkBytes contents cs[i])) := by
  obtain ⟨data₁, hrun₁, habs₁⟩ := hashRange_chunk h
  have hlen : (chunkBytes contents cs[i]).length < 2 ^ 61 := by
    have hmax := toInt_le_intMax cs[i].size
    unfold INT_MAX at hmax
    rw [chunkBytes, List.length_take]
    omega
  obtain ⟨data₂, hrun₂, hhex⟩ := sha256Finalize_hex habs₁ hlen
  rw [hashOne, hchunks, index_ok (List.getElem?_eq_getElem hi), Run.ok_bind, hrun₁, Run.ok_bind,
    hrun₂, Run.ok_bind, hhex]

/-- A range that is read as a whole is empty or in bounds. -/
theorem hashRange_hashable {contents : Str} {c : ChunkInfo} {data data' : Sha256ComputeData}
    (hrun : hashRange contents data c.offset.toInt c.size.toInt = .ok data') :
    c.Hashable contents.length := by
  by_cases hsize : c.size.toInt ≤ 0
  · exact Or.inl hsize
  · obtain ⟨n, hn⟩ := Int.eq_ofNat_of_zero_le (by omega : 0 ≤ c.size.toInt)
    rw [hn] at hrun
    have hin := hashRange_in_bounds n _ _ _ (by omega) hrun
    rw [← hn] at hin
    exact Or.inr hin

theorem hashOne_hashable {contents hash : Str} {bpkg : BpkgObj} {i : Nat}
    (h : hashOne contents bpkg i = .ok hash) :
    ∃ cs c, bpkg.chunks = some cs ∧ cs[i]? = some c ∧ c.Hashable contents.length := by
  obtain ⟨c, hc, h⟩ := Run.bind_eq_ok.mp h
  obtain ⟨data, hrun, _⟩ := Run.bind_eq_ok.mp h
  obtain ⟨cs, hcs, hget⟩ := index_eq_ok hc
  exact ⟨cs, c, hcs, hget, hashRange_hashable hrun⟩

/-- **Every chunk's computed hash is the digest of its range.** -/
theorem hashChunk_ok (pageSize : Nat) {contents : Str} {bpkg : BpkgObj} {cs : List ChunkInfo}
    (hchunks : bpkg.chunks = some cs) (hlen : bpkg.nchunks.toInt = cs.length) (hne : contents ≠ [])
    (hin : ∀ c ∈ cs, c.Hashable (mapping pageSize contents).length) :
    hashChunk pageSize (.present true true contents) bpkg
      = .ok (.ok (cs.map fun c => Fips180.sha256Hex (chunkBytes (mapping pageSize contents) c))) := by
  have heach : ∀ i (hi : i < cs.length), hashOne (mapping pageSize contents) bpkg i
      = .ok (Fips180.sha256Hex (chunkBytes (mapping pageSize contents) cs[i])) := by
    intro i hi
    exact hashOne_ok hchunks hi (hin cs[i] (List.getElem_mem hi))
  have hrun := mapM_range (g := fun c => Fips180.sha256Hex (chunkBytes (mapping pageSize contents) c))
    cs heach
  rw [hashChunk, if_pos ⟨rfl, hne⟩, hlen, Int.toNat_natCast, hrun]
  rfl

/-- **Hashes are returned only if** the file is mapped and every range can be hashed. -/
theorem hashChunk_eq_ok {pageSize : Nat} {file : DataFile} {bpkg : BpkgObj} {hashes : List Str}
    (h : hashChunk pageSize file bpkg = .ok (.ok hashes)) :
    hashes.length = bpkg.nchunks.toInt.toNat ∧ ∃ contents, file = .present true true contents ∧
      contents ≠ [] ∧ ∀ i, i < bpkg.nchunks.toInt.toNat → ∃ cs c, bpkg.chunks = some cs ∧
        cs[i]? = some c ∧ c.Hashable (mapping pageSize contents).length := by
  unfold hashChunk at h
  split at h
  · cases h
  · cases h
  · cases h
  · next map contents =>
      split at h
      · next hmap =>
          obtain ⟨rfl, hne⟩ := hmap
          obtain ⟨hs, hrun, h⟩ := Run.bind_eq_ok.mp h
          cases h
          obtain ⟨hlen, heach⟩ := mapM_eq_ok hrun
          refine ⟨by rw [hlen, List.length_range], contents, rfl, hne, fun i hi => ?_⟩
          obtain ⟨hash, hhash⟩ := heach i (List.mem_range.mpr hi)
          exact hashOne_hashable hhash
      · cases h

end Btide
