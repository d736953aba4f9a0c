import Mathlib.Data.List.Basic
import Mathlib.Data.List.GetD
import Btide.Crypt.Sha256

/-!
# `Crypt.Stream` — the streaming hash computes SHA-256

Between two calls of `sha256_update` the state is determined by the message `m` received so far:
`Absorbed data m`. The message splits into the complete blocks `x`, already hashed, and the pending
bytes `r`, kept in `last_chunk`. `sha256_update` keeps the relation (`sha256Update_absorbed`), for every
piece short enough that the 32-bit sum of its size and the fill level does not wrap, and
`sha256_finalize` turns it into the standard's digest (`sha256Finalize_absorbed`). Together they give
`sha256OfPieces_eq`: the printed digest depends on the message only, not on how it was cut.
-/

namespace Btide

open Fips180 (Words8 absorb compress initial absorb_append absorb_block absorb_short absorb_single)

/-! ## One block: `sha256_calculate_chunk` is `compress` -/

theorem loadWords_length (n : Nat) (chunk : Str) (h : 4 * n ≤ chunk.length) :
    (loadWords n chunk).length = n := by
  induction n generalizing chunk with
  | zero => cases chunk <;> rfl
  | succ n ih =>
      match chunk, h with
      | c0 :: c1 :: c2 :: c3 :: rest, h =>
        simp only [List.length_cons] at h
        simp only [loadWords, List.length_cons, ih rest (by omega)]

/-- The first loop reads the block's big-endian words. -/
theorem loadWords_getD (n : Nat) (chunk : Str) (h : 4 * n ≤ chunk.length) (t : Nat) (ht : t < n) :
    (loadWords n chunk).getD t 0 = Fips180.word chunk t := by
  induction n generalizing chunk t with
  | zero => omega
  | succ n ih =>
      match chunk, h with
      | c0 :: c1 :: c2 :: c3 :: rest, h =>
        simp only [List.length_cons] at h
        cases t with
        | zero => rfl
        | succ t =>
            have hrest := ih rest (by omega) t (by omega)
            simp only [loadWords, List.getD_cons_succ, hrest, Fips180.word]
            rfl

theorem extendWord_length (w : List UInt32) : (extendWord w).length = w.length + 1 := by
  simp [extendWord]

/-- Appending one word keeps a prefix of the schedule a prefix of the schedule. -/
theorem extendWord_getD {block : Str} {w : List UInt32} (h16 : 16 ≤ w.length)
    (hw : ∀ t < w.length, w.getD t 0 = Fips180.schedule block t) :
    ∀ t < w.length + 1, (extendWord w).getD t 0 = Fips180.schedule block t := by
  intro t ht
  rcases Nat.lt_or_ge t w.length with hlt | hge
  · rw [extendWord, List.getD_append _ _ _ _ hlt]
    exact hw t hlt
  · obtain rfl : t = w.length := by omega
    have hsum (a b c d : UInt32) : a + Fips180.smallSigma0 b + c + Fips180.smallSigma1 d
        = Fips180.smallSigma1 d + c + Fips180.smallSigma0 b + a := by ac_rfl
    rw [extendWord, List.getD_append_right _ _ _ _ (Nat.le_refl _), Nat.sub_self,
      List.getD_cons_zero, Fips180.schedule_ge h16, ← hw (w.length - 2) (by omega),
      ← hw (w.length - 7) (by omega), ← hw (w.length - 15) (by omega),
      ← hw (w.length - 16) (by omega)]
    exact hsum _ _ _ _

/-- The second loop computes the message schedule. -/
theorem extendWords_getD {block : Str} (n : Nat) {w : List UInt32} (h16 : 16 ≤ w.length)
    (hw : ∀ t < w.length, w.getD t 0 = Fips180.schedule block t) :
    (extendWords n w).length = w.length + n ∧
      ∀ t < w.length + n, (extendWords n w).getD t 0 = Fips180.schedule block t := by
  induction n generalizing w with
  | zero => exact ⟨rfl, hw⟩
  | succ n ih =>
      have hlen := extendWord_length w
      obtain ⟨hlen', hget⟩ := @ih (extendWord w) (by omega)
        (by rw [hlen]; exact extendWord_getD h16 hw)
      rw [hlen] at hlen' hget
      refine ⟨by rw [extendWords, hlen']; omega, fun t ht => ?_⟩
      exact hget t (by omega)

/-- The fourth loop performs the standard's rounds. -/
theorem mixWords_eq_foldl (ks ws : List UInt32) (tv : Words8) (h : ws.length = ks.length) :
    mixWords ks ws tv = (List.range ks.length).foldl
      (fun v t => Fips180.round (ks.getD t 0) (ws.getD t 0) v) tv := by
  induction ks generalizing ws tv with
  | nil => rfl
  | cons ki ks ih =>
      match ws, h with
      | wi :: ws, h =>
        simp only [List.length_cons, Nat.add_right_cancel_iff] at h
        rw [mixWords, ih ws _ h, List.length_cons, List.range_succ_eq_map, List.foldl_cons,
          List.foldl_map]
        rfl

theorem foldl_range_congr {n : Nat} {f g : Words8 → Nat → Words8}
    (h : ∀ v, ∀ t < n, f v t = g v t) (v : Words8) :
    (List.range n).foldl f v = (List.range n).foldl g v := by
  refine List.foldl_ext f g v fun v t ht => h v t (List.mem_range.mp ht)

/-- **One block.** -/
theorem sha256CalculateChunk_eq (data : Sha256ComputeData) (chunk : Block) :
    sha256CalculateChunk data chunk
      = { data with hcomps := compress data.hcomps chunk.data } := by
  have hlen16 : (loadWords 16 chunk.data).length = 16 :=
    loadWords_length 16 chunk.data (Nat.le_of_eq chunk.size.symm)
  have hload : ∀ t < (loadWords 16 chunk.data).length,
      (loadWords 16 chunk.data).getD t 0 = Fips180.schedule chunk.data t := by
    intro t ht
    rw [hlen16] at ht
    rw [loadWords_getD 16 chunk.data (Nat.le_of_eq chunk.size.symm) t ht, Fips180.schedule_lt ht]
  obtain ⟨hlen, hget⟩ := extendWords_getD 48 (Nat.le_of_eq hlen16.symm) hload
  rw [hlen16] at hlen hget
  have hmix : mixWords k (extendWords 48 (loadWords 16 chunk.data)) data.hcomps
      = (List.range 64).foldl (fun v t => Fips180.round (Fips180.constants.getD t 0)
          (Fips180.schedule chunk.data t) v) data.hcomps := by
    rw [mixWords_eq_foldl _ _ _ hlen]
    refine foldl_range_congr (n := 64) (fun v t ht => ?_) _
    rw [hget t ht]
    rfl
  simp only [sha256CalculateChunk, compress, hmix]

/-! ## Array operations -/

theorem Block.ofPtr_ok {ptr : Str} (h : 64 ≤ ptr.length) :
    ∃ b, Block.ofPtr ptr = .ok b ∧ b.data = ptr.take 64 := by
  unfold Block.ofPtr
  rw [dif_pos h]
  exact ⟨_, rfl, rfl⟩

theorem Block.memcpy_ok (dst : Block) {off : Nat} {src : Str} (h : off + src.length ≤ 64) :
    ∃ b, dst.memcpy off src = .ok b ∧
      b.data = dst.data.take off ++ src ++ dst.data.drop (off + src.length) := by
  unfold Block.memcpy
  rw [dif_pos h]
  exact ⟨_, rfl, rfl⟩

theorem readBytes_ok {ptr : Str} {n : Nat} (h : n ≤ ptr.length) :
    readBytes ptr n = .ok (ptr.take n) := if_pos h

/-! ## `sha256_update` -/

/-- The state after the message `m`: its complete blocks are hashed, the rest is pending. -/
def Absorbed (data : Sha256ComputeData) (m : Str) : Prop :=
  ∃ x r, m = x ++ r ∧ x.length % 64 = 0 ∧ r.length < 64 ∧ data.hcomps = absorb initial x ∧
    data.lastChunk.data.take r.length = r ∧ data.chunkSize.toNat = r.length ∧
    data.dataSize = UInt64.ofNat m.length

theorem sha256ComputeDataInit_absorbed (data : Sha256ComputeData) :
    Absorbed (sha256ComputeDataInit data) [] :=
  ⟨[], [], rfl, rfl, by decide, (absorb_short (by decide)).symm, rfl, rfl, rfl⟩

theorem toNat_toUInt32_of_lt {n : Nat} (h : n < 2 ^ 32) : n.toUInt32.toNat = n := by
  simpa using Nat.mod_eq_of_lt h

/-- Fewer than 64 bytes left: the `while` loop does nothing. -/
theorem updateBlocks_short (fuel : Nat) (data : Sha256ComputeData) (ptr : Str) (size : UInt32)
    (hsize : size.toNat = ptr.length) (h : ptr.length < 64) :
    updateBlocks fuel data ptr size = .ok (data, ptr, size) := by
  have hlt : ¬ (64 : UInt32) ≤ size := by
    rw [UInt32.le_iff_toNat_le, hsize]
    exact Nat.not_le_of_lt h
  cases fuel <;> rw [updateBlocks, if_neg hlt]

/-- The `while` loop hashes the complete blocks of what is left. -/
theorem updateBlocks_eq (fuel : Nat) (data : Sha256ComputeData) (ptr : Str) (size : UInt32)
    (hsize : size.toNat = ptr.length) (hfuel : ptr.length / 64 ≤ fuel) :
    ∃ size', updateBlocks fuel data ptr size
        = .ok ({ data with hcomps := absorb data.hcomps ptr },
            ptr.drop (64 * (ptr.length / 64)), size') ∧
      size'.toNat = ptr.length % 64 := by
  induction fuel generalizing data ptr size with
  | zero =>
      refine ⟨size, ?_, by omega⟩
      have hdiv : ptr.length / 64 = 0 := by omega
      rw [updateBlocks_short 0 data ptr size hsize (by omega), absorb_short (by omega), hdiv,
        Nat.mul_zero, List.drop_zero]
  | succ fuel ih =>
      rcases Nat.lt_or_ge ptr.length 64 with hlt | hge
      · refine ⟨size, ?_, by omega⟩
        have hdiv : ptr.length / 64 = 0 := by omega
        rw [updateBlocks_short _ data ptr size hsize hlt, absorb_short hlt, hdiv, Nat.mul_zero,
          List.drop_zero]
      · have hle : (64 : UInt32) ≤ size := by
          rw [UInt32.le_iff_toNat_le, hsize]
          exact hge
        have hdrop : (ptr.drop 64).length = ptr.length - 64 := List.length_drop
        have hsub : (size - 64).toNat = (ptr.drop 64).length := by
          rw [UInt32.toNat_sub_of_le _ _ hle, hsize, hdrop]
          rfl
        obtain ⟨b, hb, hbd⟩ := Block.ofPtr_ok hge
        obtain ⟨size', hrun, hsize'⟩ :=
          ih (sha256CalculateChunk data b) (ptr.drop 64) (size - 64) hsub (by omega)
        refine ⟨size', ?_, by omega⟩
        have hoff : 64 + 64 * ((ptr.length - 64) / 64) = 64 * (ptr.length / 64) := by omega
        rw [updateBlocks, if_pos hle]
        simp only [hb, Run.ok_bind]
        rw [hrun, sha256CalculateChunk_eq, hbd, hdrop, List.drop_drop, hoff, absorb_block hge]

/-- Completing the pending block: it is hashed, and its missing bytes are taken from the piece. -/
theorem flushPending_ok {data : Sha256ComputeData} {r ptr : Str} {size : UInt32}
    (hr : r.length < 64) (hpend : data.lastChunk.data.take r.length = r)
    (hfill : data.chunkSize.toNat = r.length) (hsize : size.toNat = ptr.length)
    (hle : 64 ≤ ptr.length + r.length) :
    ∃ size', flushPending data ptr size
        = .ok ({ data with
            hcomps := compress data.hcomps (r ++ ptr.take (64 - r.length)), chunkSize := 0 },
            ptr.drop (64 - r.length), size') ∧
      size'.toNat = ptr.length - (64 - r.length) := by
  have hlast := data.lastChunk.size
  have htake : (ptr.take (64 - r.length)).length = 64 - r.length :=
    List.length_take_of_le (by omega)
  have hfit₁ : 0 + r.length ≤ 64 := by omega
  have hfit₂ : r.length + (ptr.take (64 - r.length)).length ≤ 64 := by omega
  obtain ⟨tmp₁, htmp₁, hdata₁⟩ := Block.memcpy_ok (Block.fill 0) hfit₁
  obtain ⟨tmp₂, htmp₂, hdata₂⟩ := Block.memcpy_ok tmp₁ hfit₂
  -- the two copies fill the block
  have hfull : tmp₂.data = r ++ ptr.take (64 - r.length) := by
    have h₁ := tmp₁.size
    rw [hdata₂, htake, List.drop_eq_nil_of_le (by omega), List.append_nil, hdata₁]
    simp
  refine ⟨size - (64 - data.chunkSize.toUInt32), ?_, ?_⟩
  · unfold flushPending
    simp only [hfill]
    rw [readBytes_ok (by omega), Run.ok_bind, hpend, htmp₁, Run.ok_bind, if_neg (by omega),
      readBytes_ok (by omega), Run.ok_bind, htmp₂, Run.ok_bind, sha256CalculateChunk_eq, hfull]
  · have h64 : (64 - data.chunkSize.toUInt32).toNat = 64 - r.length := by
      rw [UInt32.toNat_sub_of_le, UInt8.toNat_toUInt32, hfill]
      · rfl
      · rw [UInt32.le_iff_toNat_le, UInt8.toNat_toUInt32, hfill]
        exact Nat.le_of_lt hr
    rw [UInt32.toNat_sub_of_le, h64, hsize]
    rw [UInt32.le_iff_toNat_le, h64, hsize]
    omega

/-- The rest of an update, entered either with an empty pending block or with a piece too short to
    complete it. -/
theorem updateRest_ok {data : Sha256ComputeData} {x r ptr : Str} {size : UInt32}
    (hx : x.length % 64 = 0) (hH : data.hcomps = absorb initial x)
    (hpend : data.lastChunk.data.take r.length = r) (hfill : data.chunkSize.toNat = r.length)
    (hsize : size.toNat = ptr.length) (hcase : r = [] ∨ r.length + ptr.length < 64)
    (htotal : data.dataSize = UInt64.ofNat (x ++ r ++ ptr).length) :
    ∃ data', updateRest data ptr size = .ok data' ∧ Absorbed data' (x ++ r ++ ptr) := by
  have hlast := data.lastChunk.size
  obtain ⟨size', hblocks, hsize'⟩ := updateBlocks_eq size.toNat data ptr size hsize (by omega)
  obtain ⟨full, tail, hptr, hfull, htail, hnil⟩ : ∃ full tail, ptr = full ++ tail ∧
      full.length = 64 * (ptr.length / 64) ∧ tail.length = ptr.length % 64 ∧
      (r = [] ∨ full = []) := by
    refine ⟨ptr.take (64 * (ptr.length / 64)), ptr.drop (64 * (ptr.length / 64)),
      (List.take_append_drop _ _).symm, List.length_take_of_le (by omega), ?_, ?_⟩
    · rw [List.length_drop]
      omega
    · rcases hcase with hr | hlt
      · exact Or.inl hr
      · refine Or.inr (List.eq_nil_of_length_eq_zero ?_)
        rw [List.length_take]
        omega
  have hdrop : ptr.drop (64 * (ptr.length / 64)) = tail := by
    rw [← hfull]
    conv => lhs; rw [hptr]
    exact List.drop_left
  -- the tail fits behind the pending bytes
  have hroom : r.length + tail.length < 64 := by
    rcases hcase with rfl | hlt
    · rw [List.length_nil]
      omega
    · omega
  have hfit : r.length + tail.length ≤ 64 := by omega
  obtain ⟨last, hlastc, hlastd⟩ := Block.memcpy_ok data.lastChunk hfit
  -- only the whole blocks of the piece have been hashed
  have habs : absorb data.hcomps ptr = absorb initial (x ++ full) := by
    rw [hH, hptr, absorb_append (by omega), absorb_append hx,
      absorb_short (H := absorb (absorb initial x) full) (by omega)]
  have hrun : updateRest data ptr size = .ok { data with
      hcomps := absorb data.hcomps ptr, lastChunk := last,
      chunkSize := (data.chunkSize.toUInt32 + size').toUInt8 } := by
    unfold updateRest
    rw [hblocks, Run.ok_bind]
    simp only [hdrop]
    rw [readBytes_ok (by omega), Run.ok_bind, List.take_of_length_le (by omega), hfill, hlastc,
      Run.ok_bind]
  refine ⟨_, hrun, x ++ full, r ++ tail, ?_, ?_, ?_, habs, ?_, ?_, htotal⟩
  · rcases hnil with rfl | rfl
    · simp [hptr]
    · simp [hptr]
  · rw [List.length_append]
    omega
  · rw [List.length_append]
    exact hroom
  · show last.data.take (r ++ tail).length = r ++ tail
    rw [hlastd, hpend]
    exact List.take_left
  · show ((data.chunkSize.toUInt32 + size').toUInt8).toNat = _
    rw [UInt32.toNat_toUInt8, UInt32.toNat_add, UInt8.toNat_toUInt32, hfill, List.length_append]
    omega

/-- **`sha256_update` keeps `Absorbed`.** Below `2^32 - 64` bytes the sum that decides whether the pending
    block is completed does not wrap. -/
theorem sha256Update_absorbed {data : Sha256ComputeData} {m piece : Str} (h : Absorbed data m)
    (hlen : piece.length < 2 ^ 32 - 64) :
    ∃ data', sha256Update data piece piece.length.toUInt32 = .ok data' ∧
      Absorbed data' (m ++ piece) := by
  obtain ⟨x, r, rfl, hx, hr, hH, hpend, hfill, hsize⟩ := h
  have hn : piece.length.toUInt32.toNat = piece.length := toNat_toUInt32_of_lt (by omega)
  have hsum : (piece.length.toUInt32 + data.chunkSize.toUInt32).toNat = piece.length + r.length := by
    rw [UInt32.toNat_add, hn, UInt8.toNat_toUInt32, hfill]
    omega
  have htotal : data.dataSize + piece.length.toUInt32.toUInt64
      = UInt64.ofNat ((x ++ r) ++ piece).length := by
    apply UInt64.toNat_inj.mp
    rw [UInt64.toNat_add, hsize, UInt32.toNat_toUInt64, hn, @List.length_append _ (x ++ r)]
    simp
  unfold sha256Update
  by_cases hflush : 64 ≤ piece.length + r.length
  · -- the pending block is completed; what is left of the piece starts a new one
    have hle : (64 : UInt32) ≤ piece.length.toUInt32 + data.chunkSize.toUInt32 := by
      rw [UInt32.le_iff_toNat_le, hsum]
      exact hflush
    let b := r ++ piece.take (64 - r.length)
    have hb : b.length = 64 := by
      rw [List.length_append, List.length_take_of_le (by omega)]
      omega
    have hcut : x ++ r ++ piece = (x ++ b) ++ [] ++ piece.drop (64 - r.length) := by
      simp [b]
    let data₁ := { data with dataSize := data.dataSize + piece.length.toUInt32.toUInt64 }
    obtain ⟨size', hrun, hsize'⟩ := @flushPending_ok data₁ r piece _ hr hpend hfill hn hflush
    rw [if_pos hle, hrun, Run.ok_bind, hcut]
    refine updateRest_ok (r := []) (by rw [List.length_append]; omega) ?_ rfl rfl
      (by rw [hsize', List.length_drop]) (Or.inl rfl) (by rw [← hcut]; exact htotal)
    show compress data.hcomps b = absorb initial (x ++ b)
    rw [absorb_append hx, absorb_block (by omega), List.take_of_length_le (by omega),
      List.drop_eq_nil_of_le (by omega), absorb_short (by decide), hH]
  · -- the piece does not complete the pending block
    have hlt : ¬ (64 : UInt32) ≤ piece.length.toUInt32 + data.chunkSize.toUInt32 := by
      rw [UInt32.le_iff_toNat_le, hsum]
      exact hflush
    rw [if_neg hlt, Run.ok_bind]
    exact updateRest_ok hx hH hpend hfill hn (Or.inr (by omega)) htotal

/-- A whole sequence of updates absorbs the concatenation of its pieces. -/
theorem sha256Updates_absorbed (pieces : List Str) (hlen : ∀ p ∈ pieces, p.length < 2 ^ 32 - 64)
    {data : Sha256ComputeData} {m : Str} (h : Absorbed data m) :
    ∃ data', sha256Updates data pieces = .ok data' ∧ Absorbed data' (m ++ pieces.flatten) := by
  induction pieces generalizing data m with
  | nil => exact ⟨data, rfl, by simpa using h⟩
  | cons p ps ih =>
      obtain ⟨data₁, hrun₁, h₁⟩ := sha256Update_absorbed h (hlen p List.mem_cons_self)
      obtain ⟨data₂, hrun₂, h₂⟩ := ih (fun q hq => hlen q (List.mem_cons_of_mem p hq)) h₁
      refine ⟨data₂, ?_, by simpa using h₂⟩
      rw [sha256Updates, hrun₁, Run.ok_bind, hrun₂]

/-! ## `sha256_finalize` -/

/-- The length loop stores the low bytes of its argument, most significant first. -/
theorem sizeBytes_eq (i : Nat) (size : UInt64) :
    sizeBytes i size = (List.range i).map fun j => (size.toNat / 256 ^ (i - 1 - j)).toUInt8 := by
  induction i generalizing size with
  | zero => rfl
  | succ i ih =>
      have hshift : (size >>> 8).toNat = size.toNat / 256 := by
        simp [Nat.shiftRight_eq_div_pow]
      have hlow : (size &&& 255).toUInt8 = size.toNat.toUInt8 := by
        apply UInt8.toNat_inj.mp
        rw [UInt64.toNat_toUInt8, UInt64.toNat_and]
        have h255 : (255 : UInt64).toNat = 2 ^ 8 - 1 := rfl
        rw [h255, Nat.and_two_pow_sub_one_eq_mod]
        simp
      rw [sizeBytes, ih, hshift, hlow, List.range_succ, List.map_append, List.map_singleton]
      have hlast : i + 1 - 1 - i = 0 := by omega
      rw [hlast, Nat.pow_zero, Nat.div_one]
      refine congrArg (· ++ _) (List.map_congr_left fun j hj => ?_)
      have hji : j < i := List.mem_range.mp hj
      have hexp : i + 1 - 1 - j = (i - 1 - j) + 1 := by omega
      rw [Nat.div_div_eq_div_mul, hexp, Nat.pow_succ, Nat.mul_comm 256]

/-- Below `2^61` bytes the stored length is the standard's. -/
theorem sizeBytes_be64 {n : Nat} (h : n < 2 ^ 61) :
    sizeBytes 8 (UInt64.ofNat n * 8) = Fips180.be64 (8 * n) := by
  have hval : (UInt64.ofNat n * 8).toNat = 8 * n := by
    rw [UInt64.toNat_mul]
    simp only [UInt64.toNat_ofNat', UInt64.reduceToNat]
    omega
  rw [sizeBytes_eq, hval, Fips180.be64]

/-- The last block after the marker byte and the zeros behind it. -/
theorem finalize_marker {b : Block} {r : Str} (hr : r.length < 64) (hpend : b.data.take r.length = r) :
    ∃ b₁ b₂, b.memcpy r.length [0x80] = .ok b₁ ∧
      b₁.memcpy (r.length + 1) (List.replicate (64 - (r.length + 1)) 0) = .ok b₂ ∧
      b₂.data = r ++ 0x80 :: List.replicate (63 - r.length) 0 := by
  have hlast := b.size
  have hfit₁ : r.length + [(0x80 : UInt8)].length ≤ 64 := by
    rw [List.length_singleton]
    omega
  obtain ⟨b₁, hb₁, hd₁⟩ := Block.memcpy_ok b hfit₁
  have hfit₂ : r.length + 1 + (List.replicate (64 - (r.length + 1)) (0 : UInt8)).length ≤ 64 := by
    rw [List.length_replicate]
    omega
  obtain ⟨b₂, hb₂, hd₂⟩ := Block.memcpy_ok b₁ hfit₂
  refine ⟨b₁, b₂, hb₁, hb₂, ?_⟩
  have hhead : b₁.data.take (r.length + 1) = r ++ [0x80] := by
    rw [hd₁, hpend]
    exact List.take_left' (by simp)
  have hz : 64 - (r.length + 1) = 63 - r.length := by omega
  rw [hd₂, hhead, List.drop_eq_nil_of_le (by rw [List.length_replicate, b₁.size]; omega), hz]
  simp

/-- Storing the length in the last eight bytes. -/
theorem finalize_length (b : Block) {tail : Str} (h : tail.length = 8) :
    ∃ b', b.memcpy 56 tail = .ok b' ∧ b'.data = b.data.take 56 ++ tail := by
  have hfit : 56 + tail.length ≤ 64 := by omega
  obtain ⟨b', hb', hd⟩ := Block.memcpy_ok b hfit
  refine ⟨b', hb', ?_⟩
  rw [hd, List.drop_eq_nil_of_le (by rw [b.size]; omega), List.append_nil]

/-- **`sha256_finalize` computes the digest** of the absorbed message. -/
theorem sha256Finalize_absorbed {data : Sha256ComputeData} {m : Str} (h : Absorbed data m)
    (hlen : m.length < 2 ^ 61) :
    ∃ data', sha256Finalize data = .ok data' ∧ data'.hcomps = Fips180.sha256 m := by
  obtain ⟨x, r, hm, hx, hr, hH, hpend, hfill, hsize⟩ := h
  obtain ⟨b₁, b₂, hb₁, hb₂, hd₂⟩ := finalize_marker hr hpend
  have hmod : m.length % 64 = r.length := by
    rw [hm, List.length_append]
    omega
  have hsucc : (data.chunkSize + 1).toNat = r.length + 1 := by
    rw [UInt8.toNat_add, hfill]
    simp only [UInt8.reduceToNat]
    omega
  have hbe : (Fips180.be64 (8 * m.length)).length = 8 := Fips180.be64_length _
  have hsha : Fips180.sha256 m = absorb (absorb initial x)
      (r ++ 0x80 :: (List.replicate (Fips180.zeros m.length) 0 ++ Fips180.be64 (8 * m.length))) := by
    rw [Fips180.sha256, Fips180.pad]
    conv => lhs; rw [hm]
    rw [List.append_assoc, absorb_append hx, ← hm]
  have hbits : sizeBytes 8 (data.dataSize * 8) = Fips180.be64 (8 * m.length) := by
    rw [hsize, sizeBytes_be64 hlen]
  unfold sha256Finalize
  rw [hfill, hb₁, Run.ok_bind]
  simp only [hsucc]
  rw [hb₂, Run.ok_bind]
  by_cases hlong : 56 < r.length + 1
  · -- no room for the length: the marker's block is hashed, the length gets a block of its own
    have hgt : (56 : UInt8) < data.chunkSize + 1 := by
      rw [UInt8.lt_iff_toNat_lt, hsucc]
      exact hlong
    obtain ⟨b₃, hb₃, hd₃⟩ := finalize_length (Block.fill 0) hbe
    have hz : Fips180.zeros m.length = (63 - r.length) + 56 := by
      rw [Fips180.zeros, hmod]
      omega
    rw [if_pos hgt]
    simp only [sha256CalculateChunk_eq]
    rw [hbits, hb₃, Run.ok_bind]
    refine ⟨_, rfl, ?_⟩
    have hlen₂ : b₂.data.length % 64 = 0 := by rw [b₂.size]
    have hcut : r ++ 0x80 :: (List.replicate (Fips180.zeros m.length) 0
        ++ Fips180.be64 (8 * m.length)) = b₂.data ++ b₃.data := by
      rw [hd₂, hd₃, hz, List.replicate_add]
      simp [Block.fill]
    rw [hsha, hcut, absorb_append hlen₂, absorb_single b₂.size, absorb_single b₃.size, hH]
  · -- the length goes behind the marker, over the last eight zeros
    have hle : ¬ (56 : UInt8) < data.chunkSize + 1 := by
      rw [UInt8.lt_iff_toNat_lt, hsucc]
      exact hlong
    obtain ⟨b₃, hb₃, hd₃⟩ := finalize_length b₂ hbe
    have hz : Fips180.zeros m.length = 55 - r.length := by
      rw [Fips180.zeros, hmod]
      omega
    rw [if_neg hle]
    simp only [hbits, hb₃, Run.ok_bind, sha256CalculateChunk_eq]
    refine ⟨_, rfl, ?_⟩
    have hcut : r ++ 0x80 :: (List.replicate (Fips180.zeros m.length) 0
        ++ Fips180.be64 (8 * m.length)) = b₃.data := by
      have hsplit : r ++ 0x80 :: List.replicate (63 - r.length) (0 : UInt8)
          = (r ++ 0x80 :: List.replicate (55 - r.length) 0) ++ List.replicate 8 0 := by
        have h63 : 63 - r.length = (55 - r.length) + 8 := by omega
        rw [h63, List.replicate_add]
        simp
      have hroom : (r ++ 0x80 :: List.replicate (55 - r.length) (0 : UInt8)).length = 56 := by
        simp only [List.length_append, List.length_cons, List.length_replicate]
        omega
      rw [hd₃, hd₂, hz, hsplit, List.take_left' hroom]
      simp
    rw [hsha, hcut, absorb_single b₃.size, hH]

/-! ## Digests -/

theorem toUInt8_and_255 (x : UInt32) : (x &&& 255).toUInt8 = x.toUInt8 := by
  apply UInt8.toNat_inj.mp
  have h255 : (255 : UInt32).toNat = 2 ^ 8 - 1 := rfl
  rw [UInt32.toNat_toUInt8, UInt32.toNat_toUInt8, UInt32.toNat_and, h255,
    Nat.and_two_pow_sub_one_eq_mod, Nat.mod_mod]

theorem sha256Output_eq (data : Sha256ComputeData) :
    sha256Output data = Fips180.digest data.hcomps := by
  simp only [sha256Output, Fips180.digest, Fips180.be32, toUInt8_and_255]

/-- The lookup table holds the hexadecimal digits. -/
theorem lut_getD {n : UInt8} (h : n.toNat < 16) : lut.getD n.toNat 0 = Fips180.hexDigit n := by
  have hall : ∀ i : Fin 16, lut.getD i.val 0 = Fips180.hexDigit (UInt8.ofNat i.val) := by decide
  simpa using hall ⟨n.toNat, h⟩

theorem binToHex_eq (bs : Str) : binToHex bs = Fips180.hex bs := by
  induction bs with
  | nil => rfl
  | cons c bs ih =>
      have hhigh : (c >>> 4).toNat < 16 := by
        have := c.toNat_lt
        simp only [UInt8.toNat_shiftRight, UInt8.reduceToNat, Nat.shiftRight_eq_div_pow,
          Nat.reduceMod, Nat.reducePow]
        omega
      have hlow : (c &&& 15).toNat < 16 := by
        rw [UInt8.toNat_and]
        exact Nat.lt_succ_of_le Nat.and_le_right
      rw [binToHex, ih, lut_getD hhigh, lut_getD hlow]
      rfl

/-- Finalising and printing the state for the message `m`. -/
theorem sha256Finalize_hex {data : Sha256ComputeData} {m : Str} (h : Absorbed data m)
    (hlen : m.length < 2 ^ 61) :
    ∃ data', sha256Finalize data = .ok data' ∧ sha256OutputHex data' = Fips180.sha256Hex m := by
  obtain ⟨data', hrun, hH⟩ := sha256Finalize_absorbed h hlen
  refine ⟨data', hrun, ?_⟩
  rw [sha256OutputHex, sha256Output_eq, binToHex_eq, hH, Fips180.sha256Hex]

/-- **The streaming hash is SHA-256.** For every cutting of a message below `2^61` bytes into pieces
    below `2^32 - 64` bytes, and whatever the state held before it was initialised. -/
theorem sha256OfPieces_eq (data : Sha256ComputeData) (pieces : List Str)
    (hpieces : ∀ p ∈ pieces, p.length < 2 ^ 32 - 64) (hlen : pieces.flatten.length < 2 ^ 61) :
    sha256OfPieces data pieces = .ok (Fips180.sha256Hex pieces.flatten) := by
  obtain ⟨data₁, hrun₁, h₁⟩ :=
    sha256Updates_absorbed pieces hpieces (sha256ComputeDataInit_absorbed data)
  rw [List.nil_append] at h₁
  obtain ⟨data₂, hrun₂, h₂⟩ := sha256Finalize_hex h₁ hlen
  rw [sha256OfPieces, hrun₁, Run.ok_bind, hrun₂, Run.ok_bind, h₂]

/-- **The digest does not depend on the cutting**: however a message is cut into pieces of the sizes that
    `hashChunk` and `computeParentHash` pass, its digest is printed. -/
theorem sha256OfPieces_cut (data : Sha256ComputeData) {m : Str} {pieces : List Str}
    (hm : m.length < 2 ^ 61) (hcut : pieces.flatten = m) (hpieces : ∀ p ∈ pieces, p.length ≤ 1024) :
    sha256OfPieces data pieces = .ok (Fips180.sha256Hex m) := by
  subst hcut
  apply sha256OfPieces_eq data pieces ?_ hm
  intro p hp
  have h := hpieces p hp
  omega

/-- A message of three bytes in three pieces, one of them empty. -/
theorem sha256OfPieces_cut_three :
    sha256OfPieces .local [bytes "ab", [], bytes "c"] = .ok (Fips180.sha256Hex (bytes "abc")) :=
  sha256OfPieces_cut .local (by decide) rfl (by decide)

end Btide
