import Btide.Base.Run
import Btide.Crypt.Fips180

/-!
# `Crypt.Sha256` — the streaming hash of `crypt/sha256.c`

The functions of the C file, in its order. The 64-byte arrays are `Block`s, so their size is part of
their type; `memcpy` into one checks its bounds. `uint32_t` and `uint8_t` arithmetic wraps, as `UInt32`
and `UInt8` do. The eight-word array `hcomps` is a `Words8`.

Only `Fips180.Words8` and its `be32` are taken from the standard's module, not its computations: that
the two agree is the subject of `Crypt.Stream`.
-/

namespace Btide

open Fips180 (Words8)

/-! ## Fixed-size arrays -/

/-- A `uint8_t[64]` array. -/
structure Block where
  data : Str
  size : data.length = 64
deriving DecidableEq

namespace Block

/-- 64 equal bytes, as `memset` leaves them. -/
def fill (b : UInt8) : Block := ⟨List.replicate 64 b, List.length_replicate⟩

/-- The 64 bytes a pointer to `ptr` points to. -/
def ofPtr (ptr : Str) : Run Block :=
  if h : 64 ≤ ptr.length then .ok ⟨ptr.take 64, List.length_take_of_le h⟩ else .error .outOfBounds

/-- `memcpy(dst + off, src, strlen(src))` into a 64-byte array. -/
def memcpy (dst : Block) (off : Nat) (src : Str) : Run Block :=
  if h : off + src.length ≤ 64 then
    .ok ⟨dst.data.take off ++ src ++ dst.data.drop (off + src.length), by
      have := dst.size
      simp only [List.length_append, List.length_take, List.length_drop]
      omega⟩
  else .error .bufferOverflow

end Block

/-- The first `n` bytes a pointer to `ptr` points to. -/
def readBytes (ptr : Str) (n : Nat) : Run Str :=
  if n ≤ ptr.length then .ok (ptr.take n) else .error .outOfBounds

/-- `struct sha256_compute_data`. -/
structure Sha256ComputeData where
  dataSize : UInt64
  hcomps : Words8
  lastChunk : Block
  chunkSize : UInt8
deriving DecidableEq

/-- The round constants `k`. -/
def k : List UInt32 :=
  [0x428a2f98, 0x71374491,
   0xb5c0fbcf, 0xe9b5dba5,
   0x3956c25b, 0x59f111f1,
   0x923f82a4, 0xab1c5ed5,
   0xd807aa98, 0x12835b01,
   0x243185be, 0x550c7dc3,
   0x72be5d74, 0x80deb1fe,
   0x9bdc06a7, 0xc19bf174,
   0xe49b69c1, 0xefbe4786,
   0x0fc19dc6, 0x240ca1cc,
   0x2de92c6f, 0x4a7484aa,
   0x5cb0a9dc, 0x76f988da,
   0x983e5152, 0xa831c66d,
   0xb00327c8, 0xbf597fc7,
   0xc6e00bf3, 0xd5a79147,
   0x06ca6351, 0x14292967,
   0x27b70a85, 0x2e1b2138,
   0x4d2c6dfc, 0x53380d13,
   0x650a7354, 0x766a0abb,
   0x81c2c92e, 0x92722c85,
   0xa2bfe8a1, 0xa81a664b,
   0xc24b8b70, 0xc76c51a3,
   0xd192e819, 0xd6990624,
   0xf40e3585, 0x106aa070,
   0x19a4c116, 0x1e376c08,
   0x2748774c, 0x34b0bcb5,
   0x391c0cb3, 0x4ed8aa4a,
   0x5b9cca4f, 0x682e6ff3,
   0x748f82ee, 0x78a5636f,
   0x84c87814, 0x8cc70208,
   0x90befffa, 0xa4506ceb,
   0xbef9a3f7, 0xc67178f2]

/-- The macro `rotate_r`. -/
def rotateR (val bits : UInt32) : UInt32 := val >>> bits ||| val <<< (32 - bits)

def sha256ComputeDataInit (data : Sha256ComputeData) : Sha256ComputeData :=
  { data with
    hcomps := ⟨0x6a09e667, 0xbb67ae85, 0x3c6ef372, 0xa54ff53a,
      0x510e527f, 0x9b05688c, 0x1f83d9ab, 0x5be0cd19⟩
    dataSize := 0
    chunkSize := 0 }

/-! ## One block -/

/-- The first loop of `sha256_calculate_chunk`: `n` words, four bytes each. -/
def loadWords : Nat → Str → List UInt32
  | n + 1, c0 :: c1 :: c2 :: c3 :: chunk =>
    (c0.toUInt32 <<< 24 ||| c1.toUInt32 <<< 16 ||| c2.toUInt32 <<< 8 ||| c3.toUInt32)
      :: loadWords n chunk
  | _, _ => []

/-- The body of the second loop, which fills in `w[i]` behind `w[0 .. i)`. -/
def extendWord (w : List UInt32) : List UInt32 :=
  let i := w.length
  let s0 := rotateR (w.getD (i - 15) 0) 7 ^^^ rotateR (w.getD (i - 15) 0) 18
    ^^^ (w.getD (i - 15) 0 >>> 3)
  let s1 := rotateR (w.getD (i - 2) 0) 17 ^^^ rotateR (w.getD (i - 2) 0) 19
    ^^^ (w.getD (i - 2) 0 >>> 10)
  w ++ [w.getD (i - 16) 0 + s0 + w.getD (i - 7) 0 + s1]

/-- The second loop, `n` iterations of it. -/
def extendWords : Nat → List UInt32 → List UInt32
  | 0, w => w
  | n + 1, w => extendWords n (extendWord w)

/-- The body of the fourth loop, on the working array `tv`. -/
def mixWord (ki wi : UInt32) (tv : Words8) : Words8 :=
  let S1 := rotateR tv.e 6 ^^^ rotateR tv.e 11 ^^^ rotateR tv.e 25
  let ch := (tv.e &&& tv.f) ^^^ (~~~tv.e &&& tv.g)
  let temp1 := tv.h + S1 + ch + ki + wi
  let S0 := rotateR tv.a 2 ^^^ rotateR tv.a 13 ^^^ rotateR tv.a 22
  let maj := (tv.a &&& tv.b) ^^^ (tv.a &&& tv.c) ^^^ (tv.b &&& tv.c)
  let temp2 := S0 + maj
  { h := tv.g, g := tv.f, f := tv.e, e := tv.d + temp1,
    d := tv.c, c := tv.b, b := tv.a, a := temp1 + temp2 }

/-- The fourth loop, over the constants and the schedule together. -/
def mixWords : List UInt32 → List UInt32 → Words8 → Words8
  | ki :: ks, wi :: ws, tv => mixWords ks ws (mixWord ki wi tv)
  | _, _, tv => tv

def sha256CalculateChunk (data : Sha256ComputeData) (chunk : Block) : Sha256ComputeData :=
  let w := extendWords 48 (loadWords 16 chunk.data)
  let tv := mixWords k w data.hcomps
  let H := data.hcomps
  { data with
    hcomps := ⟨H.a + tv.a, H.b + tv.b, H.c + tv.c, H.d + tv.d,
      H.e + tv.e, H.f + tv.f, H.g + tv.g, H.h + tv.h⟩ }

/-! ## `sha256_update` -/

/-- `while (size >= 64)` of `sha256_update`; each turn takes 64 from `size`, so `size` bounds the turns. -/
def updateBlocks : Nat → Sha256ComputeData → Str → UInt32 → Run (Sha256ComputeData × Str × UInt32)
  | fuel, data, ptr, size =>
    if 64 ≤ size then
      match fuel with
      | 0 => .error .outOfFuel
      | fuel + 1 => do
        let chunk ← Block.ofPtr ptr
        updateBlocks fuel (sha256CalculateChunk data chunk) (ptr.drop 64) (size - 64)
    else .ok (data, ptr, size)

/-- The branch that completes the pending block. `tmp_chunk` starts uninitialised; every byte of it is
    written before it is hashed. -/
def flushPending (data : Sha256ComputeData) (ptr : Str) (size : UInt32) :
    Run (Sha256ComputeData × Str × UInt32) := do
  let pending := data.chunkSize.toNat
  let head ← readBytes data.lastChunk.data pending
  let tmp ← (Block.fill 0).memcpy 0 head
  -- a fill level above 64 would turn into an enormous `size_t`
  if 64 < pending then .error .bufferOverflow
  else do
    let rest ← readBytes ptr (64 - pending)
    let tmp ← tmp.memcpy pending rest
    .ok (sha256CalculateChunk { data with chunkSize := 0 } tmp, ptr.drop (64 - pending),
      size - (64 - data.chunkSize.toUInt32))

/-- The rest of `sha256_update`: hash the complete blocks, then keep what is left in `last_chunk`. -/
def updateRest (data : Sha256ComputeData) (ptr : Str) (size : UInt32) : Run Sha256ComputeData := do
  let (data, ptr, size) ← updateBlocks size.toNat data ptr size
  let tail ← readBytes ptr size.toNat
  let lastChunk ← data.lastChunk.memcpy data.chunkSize.toNat tail
  .ok { data with lastChunk := lastChunk, chunkSize := (data.chunkSize.toUInt32 + size).toUInt8 }

def sha256Update (data : Sha256ComputeData) (bytes : Str) (size : UInt32) : Run Sha256ComputeData := do
  let data := { data with dataSize := data.dataSize + size.toUInt64 }
  let (data, ptr, size) ←
    if 64 ≤ size + data.chunkSize.toUInt32 then flushPending data bytes size
    else .ok (data, bytes, size)
  updateRest data ptr size

/-! ## `sha256_finalize` and the output functions -/

/-- The loop that stores the message length, most significant byte first. -/
def sizeBytes : Nat → UInt64 → Str
  | 0, _ => []
  | i + 1, size => sizeBytes i (size >>> 8) ++ [(size &&& 255).toUInt8]

def sha256Finalize (data : Sha256ComputeData) : Run Sha256ComputeData := do
  let lastChunk ← data.lastChunk.memcpy data.chunkSize.toNat [0x80]
  let chunkSize := data.chunkSize + 1
  let lastChunk ← lastChunk.memcpy chunkSize.toNat (List.replicate (64 - chunkSize.toNat) 0)
  let data := { data with lastChunk := lastChunk, chunkSize := chunkSize }
  let data :=
    if 56 < data.chunkSize then
      { sha256CalculateChunk data data.lastChunk with lastChunk := Block.fill 0 }
    else data
  let size := data.dataSize * 8
  let lastChunk ← data.lastChunk.memcpy 56 (sizeBytes 8 size)
  let data := { data with lastChunk := lastChunk }
  .ok (sha256CalculateChunk data data.lastChunk)

def sha256Output (data : Sha256ComputeData) : Str :=
  let word (x : UInt32) : Str :=
    [(x >>> 24 &&& 255).toUInt8, (x >>> 16 &&& 255).toUInt8, (x >>> 8 &&& 255).toUInt8,
      (x &&& 255).toUInt8]
  let H := data.hcomps
  word H.a ++ word H.b ++ word H.c ++ word H.d ++ word H.e ++ word H.f ++ word H.g ++ word H.h

/-- The digits that `bin_to_hex` indexes. -/
def lut : Str := bytes "0123456789abcdef"

def binToHex : Str → Str
  | [] => []
  | c :: data => lut.getD (c >>> 4).toNat 0 :: lut.getD (c &&& 15).toNat 0 :: binToHex data

def sha256OutputHex (data : Sha256ComputeData) : Str := binToHex (sha256Output data)

/-! ## A whole computation -/

/-- The state of a local `struct sha256_compute_data` before it is initialised. -/
def Sha256ComputeData.local : Sha256ComputeData :=
  { dataSize := 0, hcomps := ⟨0, 0, 0, 0, 0, 0, 0, 0⟩, lastChunk := Block.fill 0, chunkSize := 0 }

/-- `sha256_update` on each piece in order. -/
def sha256Updates (data : Sha256ComputeData) : List Str → Run Sha256ComputeData
  | [] => .ok data
  | piece :: pieces => do
    let data ← sha256Update data piece piece.length.toUInt32
    sha256Updates data pieces

/-- Initialise, hash the pieces, finalise, and print: what the callers in `tree/merkletree.c` do with a
    local `struct sha256_compute_data`. -/
def sha256OfPieces (data : Sha256ComputeData) (pieces : List Str) : Run Str := do
  let data ← sha256Updates (sha256ComputeDataInit data) pieces
  let data ← sha256Finalize data
  .ok (sha256OutputHex data)

end Btide
