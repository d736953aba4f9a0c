import Btide.Chk.RoundTrip
import Btide.Tree.HashChunk

/-!
# `Tree.Reads` — what `hashChunk` reads

`hashChunk` takes the ranges of the chunks from the package as they are, and nothing compares them with
the length of the data file. The turns of its inner loop are listed here without regard to what becomes
of them (`turns`). They stay within the file exactly when the whole range does (`turns_sound_iff`), and
then, and only then, the loop of the model ends (`hashRange_turns`).

So a mapped file is read in bounds if and only if the range of every chunk is empty or lies in the file
(`hashChunk_reads_iff`). A range that does not is often hashed all the same, with the zero bytes that
fill the last page of the mapping.
-/

namespace Btide

/-! ## The turns of the inner loop -/

/-- A turn of `while (datasize > 0)`: the bytes from `offset` on of which `readsize` are read. -/
structure Turn where
  offset : Int
  datasize : Int
  readsize : Int
deriving DecidableEq

/-- The turns for a range. -/
def turns (offset datasize : Int) : List Turn :=
  if _ : 0 < datasize then
    let readsize := if datasize < 1024 then datasize else 1024
    ⟨offset, datasize, readsize⟩ :: turns (offset + readsize) (datasize - readsize)
  else []
termination_by datasize.toNat
decreasing_by
  split <;> omega

/-- The turn reads bytes of a file of `stSize` bytes only, and what it assigns to `offset` and `datasize`
    are `int`s. -/
structure Turn.Sound (t : Turn) (stSize : Nat) : Prop where
  inside : ∀ b, t.offset ≤ b → b < t.offset + t.readsize → 0 ≤ b ∧ b < stSize
  offset_fits : INT_MIN ≤ t.offset + t.readsize ∧ t.offset + t.readsize ≤ INT_MAX
  datasize_fits : INT_MIN ≤ t.datasize - t.readsize ∧ t.datasize - t.readsize ≤ INT_MAX

/-- The calls of `sha256_update` and the assignments that `hashChunk` makes on a file with these contents
    are sound; an empty file is not mapped. -/
def ReadsOnlyFile (bpkg : BpkgObj) (contents : Str) : Prop :=
  contents ≠ [] → ∀ i, i < bpkg.nchunks.toInt.toNat →
    ∃ c, index bpkg.chunks i = .ok c ∧
      ∀ t ∈ turns c.offset.toInt c.size.toInt, t.Sound contents.length

/-! ## When they are sound -/

theorem turns_empty {offset datasize : Int} (h : datasize ≤ 0) : turns offset datasize = [] := by
  rw [turns, dif_neg (by omega)]

/-- The first turn reads `r` bytes. -/
theorem turns_cons {n : Nat} (offset : Int) (hn : 0 < n) :
    ∃ r : Nat, 0 < r ∧ r ≤ n ∧
      turns offset n = ⟨offset, n, r⟩ :: turns (offset + r) ((n - r : Nat) : Int) := by
  by_cases hlt : n < 1024
  · refine ⟨n, hn, Nat.le_refl n, ?_⟩
    have hrest : (n : Int) - n = ((n - n : Nat) : Int) := by omega
    rw [turns, dif_pos (by omega), if_pos (by omega)]
    show _ :: turns (offset + n) ((n : Int) - n) = _
    rw [hrest]
  · refine ⟨1024, by omega, by omega, ?_⟩
    have hrest : (n : Int) - 1024 = ((n - 1024 : Nat) : Int) := by omega
    rw [turns, dif_pos (by omega), if_neg (by omega)]
    show _ :: turns (offset + 1024) ((n : Int) - 1024) = _
    rw [hrest]
    rfl

/-- A turn is sound when its slice is in the file and ends at an `int`. -/
theorem turn_sound_iff {offset : Int} {n r stSize : Nat} (hr : 0 < r) (hrn : r ≤ n)
    (hmax : (n : Int) ≤ INT_MAX) :
    (⟨offset, n, r⟩ : Turn).Sound stSize ↔
      0 ≤ offset ∧ offset + r ≤ stSize ∧ offset + r ≤ INT_MAX := by
  constructor
  · intro h
    have hfirst := h.inside offset (by simp) (by simp; omega)
    have hlast := h.inside (offset + r - 1) (by simp; omega) (by simp)
    have hfits := h.offset_fits.2
    simp only at hfits
    exact ⟨hfirst.1, by omega, hfits⟩
  · rintro ⟨hoff, hend, hfits⟩
    refine ⟨fun b hlo hhi => ?_, ⟨?_, hfits⟩, ?_, ?_⟩
    · simp only at hlo hhi
      exact ⟨by omega, by omega⟩
    · simp only
      unfold INT_MIN
      omega
    · simp only
      unfold INT_MIN
      omega
    · simp only
      omega

/-- All turns of a range are sound when its last one ends in the file. -/
theorem turns_sound_nat {stSize : Nat} (n : Nat) : ∀ offset : Int, 0 < n → (n : Int) ≤ INT_MAX →
    ((∀ t ∈ turns offset n, t.Sound stSize) ↔
      0 ≤ offset ∧ offset + n ≤ stSize ∧ offset + n ≤ INT_MAX) := by
  induction n using Nat.strongRecOn with
  | ind n ih =>
      intro offset hn hmax
      obtain ⟨r, hr, hrn, hturns⟩ := turns_cons offset hn
      rw [hturns, List.forall_mem_cons, turn_sound_iff hr hrn hmax]
      by_cases hlast : r = n
      · -- the only turn
        have hnone : turns (offset + r) ((n - r : Nat) : Int) = [] := turns_empty (by omega)
        rw [hnone, hlast]
        simp
      · have hrest := ih (n - r) (by omega) (offset + r) (by omega) (by omega)
        rw [hrest]
        constructor
        · rintro ⟨⟨hoff, _, _⟩, _, hend, hfits⟩
          exact ⟨hoff, by omega, by omega⟩
        · rintro ⟨hoff, hend, hfits⟩
          exact ⟨⟨hoff, by omega, by omega⟩, by omega, by omega, by omega⟩

/-- **The turns for a chunk are sound exactly when its range can be hashed.** -/
theorem turns_sound_iff {c : ChunkInfo} {stSize : Nat} :
    (∀ t ∈ turns c.offset.toInt c.size.toInt, t.Sound stSize) ↔ c.Hashable stSize := by
  by_cases hsize : c.size.toInt ≤ 0
  · rw [turns_empty hsize]
    constructor
    · intro _
      exact Or.inl hsize
    · intro _ t ht
      cases ht
  · have hmax := toInt_le_intMax c.size
    obtain ⟨n, hn⟩ := Int.eq_ofNat_of_zero_le (by omega : 0 ≤ c.size.toInt)
    rw [ChunkInfo.Hashable, or_iff_right hsize]
    rw [hn] at hmax ⊢
    exact turns_sound_nat n _ (by omega) hmax

/-- The loop of the model ends on the same ranges. -/
theorem hashRange_turns {c : ChunkInfo} {contents : Str} :
    (∃ data, hashRange contents (sha256ComputeDataInit .local) c.offset.toInt c.size.toInt = .ok data) ↔
      ∀ t ∈ turns c.offset.toInt c.size.toInt, t.Sound contents.length := by
  rw [turns_sound_iff]
  constructor
  · rintro ⟨data, hrun⟩
    exact hashRange_hashable hrun
  · intro h
    obtain ⟨data, hrun, _⟩ := hashRange_chunk h
    exact ⟨data, hrun⟩

/-- **When `hashChunk` reads the data file only**: for an object that the loader returned and a data file
    of any length, the bytes read lie in the file and no `int` overflows if and only if the file is
    empty, there are no chunks, or each chunk's range is empty or lies in the file and ends at an
    `int`. -/
theorem hashChunk_reads_iff {junk : Junk} {package : Str} {obj : BpkgObj}
    (h : bpkgLoad junk (some package) = .ok obj) (contents : Str) :
    ReadsOnlyFile obj contents ↔
      contents = [] ∨ obj.nchunks.toInt ≤ 0 ∨
        ∃ cs, obj.chunks = some cs ∧ ∀ c ∈ cs, c.Hashable contents.length := by
  rw [bpkgLoad_eq] at h
  have hlists := (loadLines_counted h).lists
  constructor
  · intro hreads
    by_cases hne : contents = []
    · exact Or.inl hne
    by_cases hpos : obj.nchunks.toInt ≤ 0
    · exact Or.inr (Or.inl hpos)
    refine Or.inr (Or.inr ?_)
    obtain ⟨c₀, hget₀, _⟩ := hreads hne 0 (by omega)
    obtain ⟨cs, hcs, _⟩ := index_eq_ok hget₀
    refine ⟨cs, hcs, fun c hc => ?_⟩
    obtain ⟨i, hi, rfl⟩ := List.mem_iff_getElem.mp hc
    obtain ⟨c', hget, hsound⟩ := hreads hne i (by rwa [← (hlists cs hcs).1])
    rw [hcs, index_ok (List.getElem?_eq_getElem hi)] at hget
    cases hget
    exact turns_sound_iff.mp hsound
  · rintro (hempty | hnone | ⟨cs, hcs, hall⟩) hne i hi
    · exact absurd hempty hne
    · omega
    · have hlen : i < cs.length := by rwa [(hlists cs hcs).1]
      refine ⟨cs[i], ?_, turns_sound_iff.mpr (hall _ (List.getElem_mem hlen))⟩
      rw [hcs]
      exact index_ok (List.getElem?_eq_getElem hlen)

/-- Two chunks of the first eight bytes. -/
theorem hashChunk_reads_iff_two : ReadsOnlyFile (Package.uniform 1 (by decide)).obj (bytes "12345678") := by
  apply (hashChunk_reads_iff (Package.uniform_load default 1 (by decide)) _).mpr
  exact Or.inr (Or.inr ⟨_, rfl, by decide⟩)

/-- **A data file that is too short is hashed all the same.** Eight bytes are read of a file that has
    one. -/
theorem hashChunk_reads_past_end :
    ∃ (junk : Junk) (package contents : Str) (obj : BpkgObj) (hashes : List Str),
      bpkgLoad junk (some package) = .ok obj ∧ contents = bytes "1" ∧
      hashChunk 4096 (.present true true contents) obj = .ok (.ok hashes) ∧
      ¬ ReadsOnlyFile obj contents := by
  have hload := Package.uniform_load default 1 (by decide)
  -- the page behind the file's one byte
  have hpage : (mapping 4096 (bytes "1")).length = 4096 := by
    rw [mapping, List.length_append, List.length_replicate]
    decide
  have hin : ∀ c ∈ (Package.uniform 1 (by decide)).chunks,
      c.Hashable (mapping 4096 (bytes "1")).length := by
    rw [hpage]
    decide
  have hhash : hashChunk 4096 (.present true true (bytes "1")) (Package.uniform 1 (by decide)).obj = _ :=
    hashChunk_ok 4096 rfl (by decide) (by decide) hin
  refine ⟨default, _, _, _, _, hload, rfl, hhash, fun hreads => ?_⟩
  obtain ⟨c, hget, hsound⟩ := hreads (by decide) 0 (by decide)
  cases hget
  exact absurd (turns_sound_iff.mp hsound) (by decide)

end Btide
