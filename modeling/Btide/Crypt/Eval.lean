import Mathlib.Data.List.GetD
import Btide.Crypt.Fips180

/-!
# `Crypt.Eval` — evaluating digests

`Fips180.sha256` is stated for reading: its schedule is a recurrence that recomputes every word, and its
words are `UInt32`s, whose operations unfold through three types. A digest of a concrete message is
found with `evalSha256` instead, which works on natural numbers and keeps the words of the schedule
computed so far, the latest first. `sha256_eq_eval` makes the two interchangeable.

`force` puts a number into the place of a term before the term is copied.
-/

namespace Btide
namespace Fips180

/-- `f a`, with `a` evaluated first. -/
def force {α : Type} (a : Nat) (f : Nat → α) : α :=
  match a with
  | 0 => f 0
  | n + 1 => f (n + 1)

@[simp] theorem force_eq {α : Type} (a : Nat) (f : Nat → α) : force a f = f a := by
  cases a with
  | zero => rfl
  | succ n => rfl

/-! ## Words as numbers -/

/-- The eight words as natural numbers. -/
structure Nat8 where
  a : Nat
  b : Nat
  c : Nat
  d : Nat
  e : Nat
  f : Nat
  g : Nat
  h : Nat

def Words8.toNat8 (v : Words8) : Nat8 :=
  ⟨v.a.toNat, v.b.toNat, v.c.toNat, v.d.toNat, v.e.toNat, v.f.toNat, v.g.toNat, v.h.toNat⟩

def Nat8.toWords8 (v : Nat8) : Words8 :=
  ⟨.ofNat v.a, .ofNat v.b, .ofNat v.c, .ofNat v.d, .ofNat v.e, .ofNat v.f, .ofNat v.g, .ofNat v.h⟩

@[simp] theorem Words8.toNat8_toWords8 (v : Words8) : v.toNat8.toWords8 = v := by
  simp [toNat8, Nat8.toWords8]

def evalRotr (n x : Nat) : Nat := x >>> n ||| x <<< (32 - n) % 4294967296

theorem rotr_toNat (x : UInt32) {n : UInt32} (h₀ : 0 < n.toNat) (h : n.toNat < 32) :
    (rotr n x).toNat = evalRotr n.toNat x.toNat := by
  have h32 : (32 : UInt32).toNat = 32 := rfl
  have hsub : (32 - n).toNat = 32 - n.toNat := by
    rw [UInt32.toNat_sub_of_le _ _ (UInt32.le_iff_toNat_le.mpr (by omega)), h32]
  rw [rotr, UInt32.toNat_or, UInt32.toNat_shiftRight, UInt32.toNat_shiftLeft, hsub,
    Nat.mod_eq_of_lt h, Nat.mod_eq_of_lt (by omega : 32 - n.toNat < 32), evalRotr]

def evalCh (x y z : Nat) : Nat := (x &&& y) ^^^ ((4294967295 - x) &&& z)

theorem ch_toNat (x y z : UInt32) : (ch x y z).toNat = evalCh x.toNat y.toNat z.toNat := by
  rw [ch, UInt32.toNat_xor, UInt32.toNat_and, UInt32.toNat_and, UInt32.toNat_not]
  rfl

def evalMaj (x y z : Nat) : Nat := (x &&& y) ^^^ (x &&& z) ^^^ (y &&& z)

theorem maj_toNat (x y z : UInt32) : (maj x y z).toNat = evalMaj x.toNat y.toNat z.toNat := by
  simp only [maj, UInt32.toNat_xor, UInt32.toNat_and, evalMaj]

/-- The two functions of a round are three rotations each. -/
def evalBigSigma (l m n x : Nat) : Nat := evalRotr l x ^^^ evalRotr m x ^^^ evalRotr n x

theorem bigSigma0_toNat (x : UInt32) : (bigSigma0 x).toNat = evalBigSigma 2 13 22 x.toNat := by
  rw [bigSigma0, UInt32.toNat_xor, UInt32.toNat_xor, rotr_toNat x (by decide) (by decide),
    rotr_toNat x (by decide) (by decide), rotr_toNat x (by decide) (by decide)]
  rfl

theorem bigSigma1_toNat (x : UInt32) : (bigSigma1 x).toNat = evalBigSigma 6 11 25 x.toNat := by
  rw [bigSigma1, UInt32.toNat_xor, UInt32.toNat_xor, rotr_toNat x (by decide) (by decide),
    rotr_toNat x (by decide) (by decide), rotr_toNat x (by decide) (by decide)]
  rfl

/-- The two functions of the schedule are two rotations and a shift each. -/
def evalSmallSigma (l m n x : Nat) : Nat := evalRotr l x ^^^ evalRotr m x ^^^ x >>> n

theorem smallSigma0_toNat (x : UInt32) :
    (smallSigma0 x).toNat = evalSmallSigma 7 18 3 x.toNat := by
  rw [smallSigma0, UInt32.toNat_xor, UInt32.toNat_xor, rotr_toNat x (by decide) (by decide),
    rotr_toNat x (by decide) (by decide), UInt32.toNat_shiftRight]
  rfl

theorem smallSigma1_toNat (x : UInt32) :
    (smallSigma1 x).toNat = evalSmallSigma 17 19 10 x.toNat := by
  rw [smallSigma1, UInt32.toNat_xor, UInt32.toNat_xor, rotr_toNat x (by decide) (by decide),
    rotr_toNat x (by decide) (by decide), UInt32.toNat_shiftRight]
  rfl

/-! ## The schedule -/

/-- The words `W₀ … Wₜ₋₁` of a block, the latest first. -/
def history (block : List UInt8) : Nat → List Nat
  | 0 => []
  | t + 1 => (schedule block t).toNat :: history block t

def evalWord (c₀ c₁ c₂ c₃ : UInt8) : Nat :=
  c₀.toNat <<< 24 % 4294967296 ||| c₁.toNat <<< 16 % 4294967296 ||| c₂.toNat <<< 8 % 4294967296
    ||| c₃.toNat

theorem word_toNat (block : List UInt8) (t : Nat) :
    (word block t).toNat = evalWord (block.getD (4 * t) 0) (block.getD (4 * t + 1) 0)
      (block.getD (4 * t + 2) 0) (block.getD (4 * t + 3) 0) := by
  simp only [word, UInt32.toNat_or, UInt32.toNat_shiftLeft, UInt8.toNat_toUInt32]
  rfl

/-- Read `n` words from the front of the bytes. -/
def evalLoad : Nat → List UInt8 → List Nat → List Nat
  | n + 1, c₀ :: c₁ :: c₂ :: c₃ :: bs, ws =>
    force (evalWord c₀ c₁ c₂ c₃) fun w => evalLoad n bs (w :: ws)
  | _, _, ws => ws

/-- The next four bytes of a list that has them. -/
theorem drop_four {bs : List UInt8} {i : Nat} (h : i + 4 ≤ bs.length) :
    bs.drop i = bs.getD i 0 :: bs.getD (i + 1) 0 :: bs.getD (i + 2) 0 :: bs.getD (i + 3) 0
      :: bs.drop (i + 4) := by
  have hget : ∀ j < bs.length, bs.drop j = bs.getD j 0 :: bs.drop (j + 1) := by
    intro j hj
    rw [List.drop_eq_getElem_cons hj, List.getD_eq_getElem _ _ hj]
  rw [hget i (by omega), hget (i + 1) (by omega), hget (i + 2) (by omega), hget (i + 3) (by omega)]

theorem evalLoad_eq (block : List UInt8) {n t : Nat} (h : t + n ≤ 16) (hlen : block.length = 64) :
    evalLoad n (block.drop (4 * t)) (history block t) = history block (t + n) := by
  induction n generalizing t with
  | zero =>
      simp only [evalLoad, Nat.add_zero]
  | succ n ih =>
      have hnext : 4 * t + 4 = 4 * (t + 1) := rfl
      have hword : evalWord (block.getD (4 * t) 0) (block.getD (4 * t + 1) 0)
          (block.getD (4 * t + 2) 0) (block.getD (4 * t + 3) 0) :: history block t
          = history block (t + 1) := by
        rw [← word_toNat, history, schedule_lt (by omega)]
      rw [drop_four (by omega), evalLoad, force_eq, hword, hnext, ih (by omega), Nat.add_assoc,
        Nat.add_comm 1 n]

/-! ## The rounds -/

def evalRound (k w : Nat) : Nat8 → Nat8
  | ⟨a, b, c, d, e, f, g, h⟩ =>
    force (h + evalBigSigma 6 11 25 e + evalCh e f g + k + w) fun t₁ =>
    force ((t₁ + evalBigSigma 2 13 22 a + evalMaj a b c) % 4294967296) fun a' =>
    force ((d + t₁) % 4294967296) fun e' => ⟨a', a, b, c, e', e, f, g⟩

theorem round_toNat8 (k w : UInt32) (v : Words8) :
    (round k w v).toNat8 = evalRound k.toNat w.toNat v.toNat8 := by
  simp only [round, Words8.toNat8, evalRound, force_eq, UInt32.toNat_add, bigSigma0_toNat,
    bigSigma1_toNat, ch_toNat, maj_toNat, Nat.mod_add_mod, Nat.add_mod_mod, Nat.add_assoc,
    Nat.reducePow]

/-- The sixteen latest words, the latest first. -/
structure Window where
  w₁ : Nat
  w₂ : Nat
  w₃ : Nat
  w₄ : Nat
  w₅ : Nat
  w₆ : Nat
  w₇ : Nat
  w₈ : Nat
  w₉ : Nat
  w₁₀ : Nat
  w₁₁ : Nat
  w₁₂ : Nat
  w₁₃ : Nat
  w₁₄ : Nat
  w₁₅ : Nat
  w₁₆ : Nat

/-- The window from which the word `Wₜ₊₁₆` is computed. -/
def window (block : List UInt8) (t : Nat) : Window :=
  let w (i : Nat) := (schedule block (t + i)).toNat
  ⟨w 15, w 14, w 13, w 12, w 11, w 10, w 9, w 8, w 7, w 6, w 5, w 4, w 3, w 2, w 1, w 0⟩

def Window.ofList : List Nat → Window
  | [w₁, w₂, w₃, w₄, w₅, w₆, w₇, w₈, w₉, w₁₀, w₁₁, w₁₂, w₁₃, w₁₄, w₁₅, w₁₆] =>
    ⟨w₁, w₂, w₃, w₄, w₅, w₆, w₇, w₈, w₉, w₁₀, w₁₁, w₁₂, w₁₃, w₁₄, w₁₅, w₁₆⟩
  | _ => ⟨0, 0, 0, 0, 0, 0, 0, 0, 0, 0, 0, 0, 0, 0, 0, 0⟩

theorem window_zero (block : List UInt8) : Window.ofList (history block 16) = window block 0 := rfl

/-- The rounds for the constants `ks`. The last word of the window is the word of the round. -/
def evalRounds : List UInt32 → Window → Nat8 → Nat8
  | [], _, v => v
  | k :: ks, ⟨w₁, w₂, w₃, w₄, w₅, w₆, w₇, w₈, w₉, w₁₀, w₁₁, w₁₂, w₁₃, w₁₄, w₁₅, w₁₆⟩,
      ⟨a, b, c, d, e, f, g, h⟩ =>
    force ((evalSmallSigma 17 19 10 w₂ + w₇ + evalSmallSigma 7 18 3 w₁₅ + w₁₆) % 4294967296) fun w =>
      evalRounds ks ⟨w, w₁, w₂, w₃, w₄, w₅, w₆, w₇, w₈, w₉, w₁₀, w₁₁, w₁₂, w₁₃, w₁₄, w₁₅⟩
        (evalRound k.toNat w₁₆ ⟨a, b, c, d, e, f, g, h⟩)

theorem evalRounds_cons (block : List UInt8) (k : UInt32) (ks : List UInt32) (t : Nat) (v : Nat8) :
    evalRounds (k :: ks) (window block t) v
      = evalRounds ks (window block (t + 1)) (evalRound k.toNat (schedule block t).toNat v) := by
  have hword : (schedule block (t + 16)).toNat
      = (evalSmallSigma 17 19 10 (schedule block (t + 14)).toNat + (schedule block (t + 9)).toNat
        + evalSmallSigma 7 18 3 (schedule block (t + 1)).toNat + (schedule block t).toNat)
        % 4294967296 := by
    rw [schedule_ge (by omega)]
    simp only [UInt32.toNat_add, smallSigma0_toNat, smallSigma1_toNat, Nat.mod_add_mod,
      Nat.reducePow]
    rfl
  have hnext : window block (t + 1) = ⟨(schedule block (t + 16)).toNat, (window block t).w₁,
      (window block t).w₂, (window block t).w₃, (window block t).w₄, (window block t).w₅,
      (window block t).w₆, (window block t).w₇, (window block t).w₈, (window block t).w₉,
      (window block t).w₁₀, (window block t).w₁₁, (window block t).w₁₂, (window block t).w₁₃,
      (window block t).w₁₄, (window block t).w₁₅⟩ := by
    simp only [window, Nat.add_right_comm t 1, Nat.add_assoc, Nat.reduceAdd]
  rw [hnext, hword]
  simp only [window, evalRounds, force_eq, Nat.add_zero]

/-- The rounds from round `t` on. -/
theorem evalRounds_eq (block : List UInt8) (ks : List UInt32) (t : Nat) (v : Words8) :
    evalRounds ks (window block t) v.toNat8
      = ((List.range ks.length).foldl
          (fun v i => round (ks.getD i 0) (schedule block (t + i)) v) v).toNat8 := by
  induction ks generalizing t v with
  | nil => rfl
  | cons k ks ih =>
      have hidx : ∀ i, t + 1 + i = t + (i + 1) := fun i => by omega
      rw [evalRounds_cons, ← round_toNat8, ih, List.length_cons, List.range_succ_eq_map,
        List.foldl_cons, List.foldl_map]
      simp only [hidx]
      rfl

/-- The eight sums that end a block. -/
def evalAdd : Nat8 → Nat8 → Nat8
  | ⟨a, b, c, d, e, f, g, h⟩, ⟨a', b', c', d', e', f', g', h'⟩ =>
    force ((a + a') % 4294967296) fun a => force ((b + b') % 4294967296) fun b =>
    force ((c + c') % 4294967296) fun c => force ((d + d') % 4294967296) fun d =>
    force ((e + e') % 4294967296) fun e => force ((f + f') % 4294967296) fun f =>
    force ((g + g') % 4294967296) fun g => force ((h + h') % 4294967296) fun h => ⟨a, b, c, d, e, f, g, h⟩

def evalCompress (H : Nat8) (block : List UInt8) : Nat8 :=
  evalAdd H (evalRounds constants (.ofList (evalLoad 16 block [])) H)

theorem compress_toNat8 (H : Words8) {block : List UInt8} (h : block.length = 64) :
    (compress H block).toNat8 = evalCompress H.toNat8 block := by
  have hrounds := evalRounds_eq block constants 0 H
  have hlen : constants.length = 64 := rfl
  simp only [Nat.zero_add, hlen] at hrounds
  have hload := evalLoad_eq block (Nat.le_refl (0 + 16)) h
  rw [Nat.mul_zero, List.drop_zero, Nat.zero_add, history] at hload
  rw [evalCompress, hload, window_zero, hrounds]
  simp only [compress, Words8.toNat8, evalAdd, force_eq, UInt32.toNat_add]

/-! ## Messages -/

/-- The first `n` blocks of `m`. -/
def evalAbsorb : Nat → Nat8 → List UInt8 → Nat8
  | 0, H, _ => H
  | n + 1, ⟨a, b, c, d, e, f, g, h⟩, m =>
    evalAbsorb n (evalCompress ⟨a, b, c, d, e, f, g, h⟩ (m.take 64)) (m.drop 64)

theorem absorb_toNat8 {n : Nat} (H : Words8) {m : List UInt8} (hn : m.length / 64 = n) :
    (absorb H m).toNat8 = evalAbsorb n H.toNat8 m := by
  induction n generalizing H m with
  | zero =>
      rw [absorb_short (by omega)]
      rfl
  | succ n ih =>
      have hlen : 64 ≤ m.length := by omega
      have hdrop : (m.drop 64).length / 64 = n := by
        rw [List.length_drop]
        omega
      rw [absorb_block hlen, ih _ hdrop, compress_toNat8 H (List.length_take_of_le hlen)]
      rfl

def evalSha256 (m : List UInt8) : Words8 :=
  (evalAbsorb ((m.length + 72) / 64) initial.toNat8 (pad m)).toWords8

/-- **The evaluator computes SHA-256.** -/
theorem sha256_eq_eval (m : List UInt8) : sha256 m = evalSha256 m := by
  have hblocks : (pad m).length / 64 = (m.length + 72) / 64 := by
    rw [pad_length, zeros]
    omega
  rw [evalSha256, ← absorb_toNat8 initial hblocks, Words8.toNat8_toWords8, sha256]

theorem sha256Hex_eq_eval (m : List UInt8) : sha256Hex m = hex (digest (evalSha256 m)) := by
  rw [sha256Hex, sha256_eq_eval]

end Fips180
end Btide
