import Btide.Base.Steps
import Btide.Crypt.Stream

/-!
# `Crypt.Fill` — the fill level of the pending block

`last_chunk` holds fewer than 64 pending bytes between two updates, and their number is what is left of
the bytes received so far: `Kept`. `sha256_update` decides with a 32-bit sum whether the pending block is
completed. Where the sum does not wrap the update keeps `Kept`; where it wraps the block is not completed
and the last copy reaches the end of `last_chunk` or goes past it (`sha256Update_kept_iff`).

Here `size` is any `uint32_t`, and the pointer may point to more than `size` bytes.
-/

namespace Btide

/-- What holds of `chunk_size` between two updates. -/
structure Kept (data : Sha256ComputeData) : Prop where
  below : data.chunkSize.toNat < 64
  rest : data.chunkSize.toNat = data.dataSize.toNat % 64

theorem sha256ComputeDataInit_kept (data : Sha256ComputeData) : Kept (sha256ComputeDataInit data) :=
  ⟨Nat.zero_lt_succ 63, rfl⟩

/-! ## The parts of an update -/

theorem sha256CalculateChunk_dataSize (data : Sha256ComputeData) (chunk : Block) :
    (sha256CalculateChunk data chunk).dataSize = data.dataSize := by
  rw [sha256CalculateChunk_eq]

theorem sha256CalculateChunk_chunkSize (data : Sha256ComputeData) (chunk : Block) :
    (sha256CalculateChunk data chunk).chunkSize = data.chunkSize := by
  rw [sha256CalculateChunk_eq]

/-- The `while` loop leaves fewer than 64 bytes, and touches neither counter. -/
theorem updateBlocks_left (fuel : Nat) (data : Sha256ComputeData) (ptr : Str) (size : UInt32)
    (hread : size.toNat ≤ ptr.length) (hfuel : size.toNat / 64 ≤ fuel) :
    ∃ data' ptr' size', updateBlocks fuel data ptr size = .ok (data', ptr', size') ∧
      data'.dataSize = data.dataSize ∧ data'.chunkSize = data.chunkSize ∧
      size'.toNat = size.toNat % 64 ∧ size'.toNat ≤ ptr'.length := by
  induction fuel generalizing data ptr size with
  | zero =>
      have hlt : ¬ (64 : UInt32) ≤ size := by
        rw [UInt32.le_iff_toNat_le]
        simp only [UInt32.reduceToNat]
        omega
      refine ⟨data, ptr, size, by rw [updateBlocks, if_neg hlt], rfl, rfl, by omega, hread⟩
  | succ fuel ih =>
      by_cases hle : (64 : UInt32) ≤ size
      · have h64 : 64 ≤ size.toNat := by
          rwa [UInt32.le_iff_toNat_le] at hle
        have hsub : (size - 64).toNat = size.toNat - 64 := UInt32.toNat_sub_of_le _ _ hle
        obtain ⟨b, hb, -⟩ := Block.ofPtr_ok (Nat.le_trans h64 hread)
        obtain ⟨data', ptr', size', hrun, hd, hc, hs, hr⟩ :=
          ih (sha256CalculateChunk data b) (ptr.drop 64) (size - 64)
            (by rw [hsub, List.length_drop]; omega) (by omega)
        rw [sha256CalculateChunk_dataSize] at hd
        rw [sha256CalculateChunk_chunkSize] at hc
        refine ⟨data', ptr', size', ?_, hd, hc, by omega, hr⟩
        rw [updateBlocks, if_pos hle]
        simp only [hb, Run.ok_bind]
        exact hrun
      · have hlt : size.toNat < 64 := by
          rw [UInt32.le_iff_toNat_le] at hle
          simpa using hle
        refine ⟨data, ptr, size, by rw [updateBlocks, if_neg hle], rfl, rfl, by omega, hread⟩

/-- Completing the pending block empties it. -/
theorem flushPending_left {data : Sha256ComputeData} {ptr : Str} {size : UInt32}
    (hfill : data.chunkSize.toNat < 64) (hread : size.toNat ≤ ptr.length)
    (hle : 64 ≤ size.toNat + data.chunkSize.toNat) :
    ∃ data' ptr' size', flushPending data ptr size = .ok (data', ptr', size') ∧
      data'.dataSize = data.dataSize ∧ data'.chunkSize = 0 ∧
      size'.toNat = size.toNat - (64 - data.chunkSize.toNat) ∧ size'.toNat ≤ ptr'.length := by
  have hlast := data.lastChunk.size
  have hhead : (data.lastChunk.data.take data.chunkSize.toNat).length = data.chunkSize.toNat :=
    List.length_take_of_le (by omega)
  have htail : (ptr.take (64 - data.chunkSize.toNat)).length = 64 - data.chunkSize.toNat :=
    List.length_take_of_le (by omega)
  have hfit₁ : 0 + (data.lastChunk.data.take data.chunkSize.toNat).length ≤ 64 := by omega
  obtain ⟨tmp₁, htmp₁, -⟩ := Block.memcpy_ok (Block.fill 0) hfit₁
  have hfit₂ : data.chunkSize.toNat + (ptr.take (64 - data.chunkSize.toNat)).length ≤ 64 := by omega
  obtain ⟨tmp₂, htmp₂, -⟩ := Block.memcpy_ok tmp₁ hfit₂
  have h64 : (64 - data.chunkSize.toUInt32).toNat = 64 - data.chunkSize.toNat := by
    rw [UInt32.toNat_sub_of_le, UInt8.toNat_toUInt32]
    · rfl
    · rw [UInt32.le_iff_toNat_le, UInt8.toNat_toUInt32]
      exact Nat.le_of_lt hfill
  have hsize : (size - (64 - data.chunkSize.toUInt32)).toNat
      = size.toNat - (64 - data.chunkSize.toNat) := by
    rw [UInt32.toNat_sub_of_le, h64]
    rw [UInt32.le_iff_toNat_le, h64]
    omega
  refine ⟨sha256CalculateChunk { data with chunkSize := 0 } tmp₂, ptr.drop (64 - data.chunkSize.toNat),
    size - (64 - data.chunkSize.toUInt32), ?_, sha256CalculateChunk_dataSize _ _,
    sha256CalculateChunk_chunkSize _ _, hsize, by rw [hsize, List.length_drop]; omega⟩
  unfold flushPending
  dsimp only
  rw [readBytes_ok (by omega), Run.ok_bind, htmp₁, Run.ok_bind, if_neg (by omega),
    readBytes_ok (by omega), Run.ok_bind, htmp₂, Run.ok_bind]

/-- The last copy stays inside `last_chunk` if there is room for what the `while` loop leaves. -/
theorem updateRest_left {data : Sha256ComputeData} {ptr : Str} {size : UInt32}
    (hread : size.toNat ≤ ptr.length) (hroom : data.chunkSize.toNat + size.toNat % 64 ≤ 64) :
    ∃ data', updateRest data ptr size = .ok data' ∧ data'.dataSize = data.dataSize ∧
      data'.chunkSize.toNat = data.chunkSize.toNat + size.toNat % 64 := by
  obtain ⟨data', ptr', size', hrun, hd, hc, hs, hr⟩ :=
    updateBlocks_left size.toNat data ptr size hread (Nat.div_le_self _ _)
  have htail : (ptr'.take size'.toNat).length = size'.toNat := List.length_take_of_le hr
  have hfit : data'.chunkSize.toNat + (ptr'.take size'.toNat).length ≤ 64 := by
    rw [hc]
    omega
  obtain ⟨last, hlast, -⟩ := Block.memcpy_ok data'.lastChunk hfit
  have hchunk : (data'.chunkSize.toUInt32 + size').toUInt8.toNat
      = data.chunkSize.toNat + size.toNat % 64 := by
    rw [UInt32.toNat_toUInt8, UInt32.toNat_add, UInt8.toNat_toUInt32, hc, hs]
    omega
  refine ⟨{ data' with lastChunk := last, chunkSize := (data'.chunkSize.toUInt32 + size').toUInt8 },
    ?_, hd, hchunk⟩
  unfold updateRest
  rw [hrun, Run.ok_bind]
  simp only [readBytes_ok hr, Run.ok_bind, hlast]

/-- Otherwise it goes past the end. -/
theorem updateRest_overflow {data : Sha256ComputeData} {ptr : Str} {size : UInt32}
    (hread : size.toNat ≤ ptr.length) (hroom : 64 < data.chunkSize.toNat + size.toNat % 64) :
    updateRest data ptr size = .error .bufferOverflow := by
  obtain ⟨data', ptr', size', hrun, hd, hc, hs, hr⟩ :=
    updateBlocks_left size.toNat data ptr size hread (Nat.div_le_self _ _)
  have htail : (ptr'.take size'.toNat).length = size'.toNat := List.length_take_of_le hr
  have hfit : ¬ data'.chunkSize.toNat + (ptr'.take size'.toNat).length ≤ 64 := by
    rw [hc]
    omega
  unfold updateRest
  rw [hrun, Run.ok_bind]
  simp only [readBytes_ok hr, Run.ok_bind, Block.memcpy, dif_neg hfit, Run.error_bind]

/-! ## One update -/

/-- A call `sha256_update(data, bytes, size)`, which may read `size` bytes. -/
structure Update where
  bytes : Str
  size : UInt32
  readable : size.toNat ≤ bytes.length

/-- The update returns, with nothing written outside the two arrays. -/
def updateStep (data : Sha256ComputeData) (u : Update) (data' : Sha256ComputeData) : Prop :=
  sha256Update data u.bytes u.size = .ok data'

/-- The sum that decides whether the pending block is completed does not wrap. -/
def NoWrap (data : Sha256ComputeData) (u : Update) : Prop :=
  u.size.toNat + data.chunkSize.toNat < 2 ^ 32

instance (data : Sha256ComputeData) (u : Update) : Decidable (NoWrap data u) :=
  inferInstanceAs (Decidable (_ < _))

theorem sum_toNat (size : UInt32) (fill : UInt8) :
    (size + fill.toUInt32).toNat = (size.toNat + fill.toNat) % 2 ^ 32 := by
  rw [UInt32.toNat_add, UInt8.toNat_toUInt32]

/-- The length counter is a multiple of 64 below its wrap-around. -/
theorem dataSize_mod (total : UInt64) (size : UInt32) :
    (total + size.toUInt64).toNat % 64 = (total.toNat + size.toNat) % 64 := by
  rw [UInt64.toNat_add, UInt32.toNat_toUInt64]
  omega

theorem sha256Update_kept {data : Sha256ComputeData} {u : Update} (h : Kept data)
    (hsum : NoWrap data u) : ∃ data', updateStep data u data' ∧
      data'.dataSize = data.dataSize + u.size.toUInt64 ∧ Kept data' := by
  obtain ⟨hbelow, hrest⟩ := h
  let data₁ := { data with dataSize := data.dataSize + u.size.toUInt64 }
  have hmod : data₁.dataSize.toNat % 64 = (data.dataSize.toNat + u.size.toNat) % 64 :=
    dataSize_mod _ _
  have hsum' : (u.size + data.chunkSize.toUInt32).toNat = u.size.toNat + data.chunkSize.toNat := by
    rw [sum_toNat]
    exact Nat.mod_eq_of_lt hsum
  unfold updateStep sha256Update
  by_cases hflush : (64 : UInt32) ≤ u.size + data.chunkSize.toUInt32
  · have hle : 64 ≤ u.size.toNat + data.chunkSize.toNat := by
      rwa [UInt32.le_iff_toNat_le, hsum'] at hflush
    obtain ⟨data₂, ptr, size, hrun, hd, hc, hs, hr⟩ :=
      @flushPending_left data₁ u.bytes u.size hbelow u.readable hle
    have hc' : data₂.chunkSize.toNat = 0 := by rw [hc]; rfl
    have hs' : size.toNat = u.size.toNat - (64 - data.chunkSize.toNat) := hs
    obtain ⟨data₃, hrest₃, hd₃, hc₃⟩ := @updateRest_left data₂ ptr size hr (by omega)
    rw [if_pos hflush, hrun, Run.ok_bind]
    refine ⟨data₃, hrest₃, hd₃.trans hd, by omega, ?_⟩
    rw [hd₃, hd, hmod]
    omega
  · have hlt : u.size.toNat + data.chunkSize.toNat < 64 := by
      rw [UInt32.le_iff_toNat_le, hsum'] at hflush
      simpa using hflush
    have hc₁ : data₁.chunkSize.toNat = data.chunkSize.toNat := rfl
    obtain ⟨data₃, hrest₃, hd₃, hc₃⟩ := @updateRest_left data₁ u.bytes u.size u.readable (by omega)
    rw [if_neg hflush, Run.ok_bind]
    refine ⟨data₃, hrest₃, hd₃, by omega, ?_⟩
    rw [hd₃, hmod]
    omega

/-- A wrapped sum hides that the block is full: it is not completed, and the last copy starts behind the
    pending bytes all the same. -/
theorem sha256Update_wrap {data : Sha256ComputeData} {u : Update} (h : Kept data)
    (hsum : ¬ NoWrap data u) :
    sha256Update data u.bytes u.size
      = updateRest { data with dataSize := data.dataSize + u.size.toUInt64 } u.bytes u.size ∧
    64 ≤ data.chunkSize.toNat + u.size.toNat % 64 := by
  have hlt := u.size.toNat_lt
  have hbelow := h.below
  unfold NoWrap at hsum
  have hskip : ¬ (64 : UInt32) ≤ u.size + data.chunkSize.toUInt32 := by
    rw [UInt32.le_iff_toNat_le, sum_toNat]
    simp only [UInt32.reduceToNat]
    omega
  constructor
  · unfold sha256Update
    rw [if_neg hskip, Run.ok_bind]
  · omega

/-- **One update keeps the fill level exactly when the 32-bit sum does not wrap.** -/
theorem sha256Update_kept_iff {data : Sha256ComputeData} {u : Update} (h : Kept data) :
    (∃ data', updateStep data u data' ∧ Kept data') ↔ NoWrap data u := by
  constructor
  · rintro ⟨data', hrun, hkept⟩
    by_contra hsum
    obtain ⟨heq, hfull⟩ := sha256Update_wrap h hsum
    have hrun' := heq.symm.trans hrun
    let data₀ := { data with dataSize := data.dataSize + u.size.toUInt64 }
    rcases Nat.lt_or_eq_of_le hfull with hlt | hfit
    · have hover := @updateRest_overflow data₀ u.bytes u.size u.readable hlt
      exact absurd (hover.symm.trans hrun') (by simp)
    · obtain ⟨data₁, hrun₁, -, hc⟩ :=
        @updateRest_left data₀ u.bytes u.size u.readable (Nat.le_of_eq hfit.symm)
      obtain rfl : data₁ = data' := Except.ok.inj (hrun₁.symm.trans hrun')
      have hc' : data₁.chunkSize.toNat = data.chunkSize.toNat + u.size.toNat % 64 := hc
      have hbelow := hkept.below
      omega
  · intro hsum
    obtain ⟨data', hrun, -, hkept⟩ := sha256Update_kept h hsum
    exact ⟨data', hrun, hkept⟩

/-! ## Every run -/

theorem updateStep_unique (s : Sha256ComputeData) (u : Update) (t t' : Sha256ComputeData)
    (h : updateStep s u t) (h' : updateStep s u t') : t = t' := by
  unfold updateStep at h h'
  rw [h] at h'
  exact Except.ok.inj h'

/-- **The fill level over a run.** After the initialisation every update of a run returns within the two
    arrays and keeps the fill level, if and only if the sum wraps in none of them. -/
theorem fill_level_kept_iff (data : Sha256ComputeData) (us : List Update) :
    EachStep updateStep (fun t u => ∃ t', updateStep t u t' ∧ Kept t') (sha256ComputeDataInit data) us
      ↔ EachStep updateStep NoWrap (sha256ComputeDataInit data) us := by
  apply EachStep.congr_of_invariant Kept
  · exact fun t u h => sha256Update_kept_iff h
  · rintro t u t' ⟨t₁, hrun, hkept⟩ - hstep
    obtain rfl := updateStep_unique t u t₁ t' hrun hstep
    exact hkept
  · exact sha256ComputeDataInit_kept data

/-- An update with `n` zero bytes. -/
def zeros (n : UInt32) : Update := ⟨List.replicate n.toNat 0, n, by simp⟩

/-- After two pending bytes, an update of `2^32 - 1` bytes writes one byte behind `last_chunk`. -/
theorem fill_level_lost :
    ∃ t, Steps updateStep (sha256ComputeDataInit .local) [zeros 2] t ∧
      sha256Update t (zeros 4294967295).bytes (zeros 4294967295).size = .error .bufferOverflow := by
  have hinit := sha256ComputeDataInit_kept .local
  obtain ⟨t, hrun, hsize, hkept⟩ := @sha256Update_kept _ (zeros 2) hinit (by decide)
  have hc : t.chunkSize.toNat = 2 := by
    rw [hkept.rest, hsize]
    rfl
  have hwrap : ¬ NoWrap t (zeros 4294967295) := by
    unfold NoWrap
    rw [hc]
    decide
  obtain ⟨heq, -⟩ := sha256Update_wrap hkept hwrap
  refine ⟨t, Steps.single_iff.mpr hrun, heq.trans ?_⟩
  apply updateRest_overflow (zeros 4294967295).readable
  show 64 < t.chunkSize.toNat + 4294967295 % 64
  omega

end Btide
