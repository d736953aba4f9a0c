import Mathlib.Algebra.Group.Nat.Defs
import Mathlib.Tactic.Common

/-!
# `Crypt.Fips180` — SHA-256 as FIPS 180-4 defines it

The standard's definition on the whole message: §4.1.2 functions, §4.2.2 constants, §5.1.1 padding,
§5.3.3 initial value, §6.2.2 computation. It is a specification: the message schedule `W` is the
standard's recurrence rather than a loop over an array, and the message is padded before the first block
is looked at.

`absorb` hashes the complete blocks of a byte string and ignores an incomplete last one. On a padded
message that is all of it; on a message still being received it is the state a streaming implementation
must be in, which is why its lemmas (`absorb_append`, `absorb_short`) are stated here.
-/

namespace Btide
namespace Fips180

/-- The eight 32-bit words of a hash value, or of the working variables `a … h`. -/
structure Words8 where
  a : UInt32
  b : UInt32
  c : UInt32
  d : UInt32
  e : UInt32
  f : UInt32
  g : UInt32
  h : UInt32
deriving DecidableEq, Repr

/-! ## Functions and constants -/

def rotr (n x : UInt32) : UInt32 := (x >>> n) ||| (x <<< (32 - n))

def ch (x y z : UInt32) : UInt32 := (x &&& y) ^^^ (~~~x &&& z)

def maj (x y z : UInt32) : UInt32 := (x &&& y) ^^^ (x &&& z) ^^^ (y &&& z)

def bigSigma0 (x : UInt32) : UInt32 := rotr 2 x ^^^ rotr 13 x ^^^ rotr 22 x

def bigSigma1 (x : UInt32) : UInt32 := rotr 6 x ^^^ rotr 11 x ^^^ rotr 25 x

def smallSigma0 (x : UInt32) : UInt32 := rotr 7 x ^^^ rotr 18 x ^^^ (x >>> 3)

def smallSigma1 (x : UInt32) : UInt32 := rotr 17 x ^^^ rotr 19 x ^^^ (x >>> 10)

/-- The constants `K₀ … K₆₃`. -/
def constants : List UInt32 :=
  [0x428a2f98, 0x71374491, 0xb5c0fbcf, 0xe9b5dba5, 0x3956c25b, 0x59f111f1, 0x923f82a4, 0xab1c5ed5,
   0xd807aa98, 0x12835b01, 0x243185be, 0x550c7dc3, 0x72be5d74, 0x80deb1fe, 0x9bdc06a7, 0xc19bf174,
   0xe49b69c1, 0xefbe4786, 0x0fc19dc6, 0x240ca1cc, 0x2de92c6f, 0x4a7484aa, 0x5cb0a9dc, 0x76f988da,
   0x983e5152, 0xa831c66d, 0xb00327c8, 0xbf597fc7, 0xc6e00bf3, 0xd5a79147, 0x06ca6351, 0x14292967,
   0x27b70a85, 0x2e1b2138, 0x4d2c6dfc, 0x53380d13, 0x650a7354, 0x766a0abb, 0x81c2c92e, 0x92722c85,
   0xa2bfe8a1, 0xa81a664b, 0xc24b8b70, 0xc76c51a3, 0xd192e819, 0xd6990624, 0xf40e3585, 0x106aa070,
   0x19a4c116, 0x1e376c08, 0x2748774c, 0x34b0bcb5, 0x391c0cb3, 0x4ed8aa4a, 0x5b9cca4f, 0x682e6ff3,
   0x748f82ee, 0x78a5636f, 0x84c87814, 0x8cc70208, 0x90befffa, 0xa4506ceb, 0xbef9a3f7, 0xc67178f2]

/-- The initial hash value `H⁽⁰⁾`. -/
def initial : Words8 :=
  ⟨0x6a09e667, 0xbb67ae85, 0x3c6ef372, 0xa54ff53a, 0x510e527f, 0x9b05688c, 0x1f83d9ab, 0x5be0cd19⟩

/-! ## One block -/

/-- The `t`-th 32-bit word of a block, big-endian. -/
def word (block : List UInt8) (t : Nat) : UInt32 :=
  (block.getD (4 * t) 0).toUInt32 <<< 24 ||| (block.getD (4 * t + 1) 0).toUInt32 <<< 16
    ||| (block.getD (4 * t + 2) 0).toUInt32 <<< 8 ||| (block.getD (4 * t + 3) 0).toUInt32

/-- The message schedule `Wₜ`. -/
def schedule (block : List UInt8) (t : Nat) : UInt32 :=
  if t < 16 then word block t
  else smallSigma1 (schedule block (t - 2)) + schedule block (t - 7)
    + smallSigma0 (schedule block (t - 15)) + schedule block (t - 16)
termination_by t
decreasing_by all_goals omega

theorem schedule_lt {block : List UInt8} {t : Nat} (h : t < 16) : schedule block t = word block t := by
  rw [schedule, if_pos h]

theorem schedule_ge {block : List UInt8} {t : Nat} (h : 16 ≤ t) :
    schedule block t = smallSigma1 (schedule block (t - 2)) + schedule block (t - 7)
      + smallSigma0 (schedule block (t - 15)) + schedule block (t - 16) := by
  rw [schedule, if_neg (by omega)]

/-- Step 3 of §6.2.2 for one `t`. -/
def round (k w : UInt32) (v : Words8) : Words8 :=
  let t₁ := v.h + bigSigma1 v.e + ch v.e v.f v.g + k + w
  let t₂ := bigSigma0 v.a + maj v.a v.b v.c
  ⟨t₁ + t₂, v.a, v.b, v.c, v.d + t₁, v.e, v.f, v.g⟩

/-- The hash value after one more block. -/
def compress (H : Words8) (block : List UInt8) : Words8 :=
  let v := (List.range 64).foldl (fun v t => round (constants.getD t 0) (schedule block t) v) H
  ⟨H.a + v.a, H.b + v.b, H.c + v.c, H.d + v.d, H.e + v.e, H.f + v.f, H.g + v.g, H.h + v.h⟩

/-! ## The whole message -/

/-- Hash the complete 64-byte blocks of `m`, from the hash value `H`. -/
def absorb (H : Words8) (m : List UInt8) : Words8 :=
  if 64 ≤ m.length then absorb (compress H (m.take 64)) (m.drop 64) else H
termination_by m.length
decreasing_by simp only [List.length_drop]; omega

/-- The 64-bit big-endian representation of `n`. -/
def be64 (n : Nat) : List UInt8 := (List.range 8).map fun i => (n / 256 ^ (7 - i)).toUInt8

/-- The number of zero bytes between the `0x80` marker and the length. -/
def zeros (len : Nat) : Nat := (119 - len % 64) % 64

/-- §5.1.1: the message, the marker bit, zeros, and the length in bits. -/
def pad (m : List UInt8) : List UInt8 :=
  m ++ 0x80 :: (List.replicate (zeros m.length) 0 ++ be64 (8 * m.length))

def sha256 (m : List UInt8) : Words8 := absorb initial (pad m)

/-! ## Digests -/

/-- The four bytes of a word, most significant first. -/
def be32 (x : UInt32) : List UInt8 :=
  [(x >>> 24).toUInt8, (x >>> 16).toUInt8, (x >>> 8).toUInt8, x.toUInt8]

def digest (v : Words8) : List UInt8 :=
  be32 v.a ++ be32 v.b ++ be32 v.c ++ be32 v.d ++ be32 v.e ++ be32 v.f ++ be32 v.g ++ be32 v.h

/-- The lower-case hexadecimal digit of `n < 16`, as an ASCII byte. -/
def hexDigit (n : UInt8) : UInt8 := if n < 10 then 48 + n else 87 + n

def hex (bs : List UInt8) : List UInt8 :=
  bs.flatMap fun c : UInt8 => [hexDigit (c >>> 4), hexDigit (c &&& 15)]

/-- The lower-case hexadecimal SHA-256 of a message. -/
def sha256Hex (m : List UInt8) : List UInt8 := hex (digest (sha256 m))

theorem hex_length (bs : List UInt8) : (hex bs).length = 2 * bs.length := by
  induction bs with
  | nil => rfl
  | cons c bs ih =>
      rw [hex, List.flatMap_cons, ← hex, List.length_append, ih, List.length_cons]
      simp only [List.length_cons, List.length_nil]
      omega

/-- A digest is 64 hexadecimal digits long. -/
@[simp] theorem sha256Hex_length (m : List UInt8) : (sha256Hex m).length = 64 := by
  rw [sha256Hex, hex_length]
  rfl

/-! ## `absorb` on concatenations -/

/-- An incomplete block is not hashed. -/
theorem absorb_short {H : Words8} {m : List UInt8} (h : m.length < 64) : absorb H m = H := by
  rw [absorb, if_neg (by omega)]

/-- The first complete block is hashed first. -/
theorem absorb_block {H : Words8} {m : List UInt8} (h : 64 ≤ m.length) :
    absorb H m = absorb (compress H (m.take 64)) (m.drop 64) := by
  rw [absorb, if_pos h]

/-- A single block. -/
theorem absorb_single {H : Words8} {m : List UInt8} (h : m.length = 64) :
    absorb H m = compress H m := by
  rw [absorb_block (Nat.le_of_eq h.symm), List.take_of_length_le (Nat.le_of_eq h),
    List.drop_eq_nil_of_le (Nat.le_of_eq h), absorb_short (by decide)]

/-- Complete blocks can be hashed before the rest of the message is there. -/
theorem absorb_append {x : List UInt8} (hx : x.length % 64 = 0) (H : Words8) (y : List UInt8) :
    absorb H (x ++ y) = absorb (absorb H x) y := by
  induction hn : x.length / 64 generalizing H x with
  | zero =>
      have hnil : x = [] := List.eq_nil_of_length_eq_zero (by omega)
      have habs : absorb H [] = H := absorb_short (by decide)
      rw [hnil, List.nil_append, habs]
  | succ n ih =>
      have hlen : 64 ≤ x.length := by omega
      have hdrop : (x.drop 64).length = x.length - 64 := List.length_drop
      rw [absorb_block (by rw [List.length_append]; omega), absorb_block hlen,
        List.take_append_of_le_length hlen, List.drop_append_of_le_length hlen]
      exact ih (by omega) _ (by omega)

theorem be64_length (n : Nat) : (be64 n).length = 8 := by
  rw [be64, List.length_map, List.length_range]

theorem pad_length (m : List UInt8) :
    (pad m).length = m.length + 1 + zeros m.length + 8 := by
  simp only [pad, List.length_append, List.length_cons, List.length_replicate, be64_length]
  omega

end Fips180
end Btide
