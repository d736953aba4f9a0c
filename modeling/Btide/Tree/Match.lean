import Btide.Chk.Collect
import Btide.Theory.Merkle

/-!
# `Tree.Match` — the hashes of a finished tree

The queries and `isComplete` depend on a tree only through its two labellings by hashes. This module
reads them off the memory (`Mem.computedAt`, `Mem.expectedAt`), says when a node matches, and relates
both to the general theory of Merkle labellings: the computed labelling always is one, the expected one
is if the package is `Consistent`, and 64-character labels can be taken apart again after concatenation.
-/

namespace Btide

open LevelOrder

/-! ## Packages with a perfect tree -/

/-- A package with `2 ^ k` chunks and one hash less, the counts for which its tree is perfect. -/
structure BpkgObj.Perfect (bpkg : BpkgObj) (k : Nat) (hs : List Str) (cs : List ChunkInfo) : Prop
    extends bpkg.Lists hs cs where
  height : 1 ≤ k
  chunks_length : cs.length = 2 ^ k
  hashes_length : hs.length + 1 = 2 ^ k

theorem BpkgObj.Perfect.listed_length {bpkg : BpkgObj} {k : Nat} {hs : List Str}
    {cs : List ChunkInfo} (h : bpkg.Perfect k hs cs) : (listed hs cs).length = 2 ^ (k + 1) - 1 := by
  have hpow := Nat.pow_succ 2 k
  have hcs := h.chunks_length
  have hhs := h.hashes_length
  rw [listed, List.length_append, List.length_map]
  omega

/-- The leaf of a chunk receives the chunk's hash. -/
theorem BpkgObj.Perfect.expected_leaf {bpkg : BpkgObj} {k : Nat} {hs : List Str}
    {cs : List ChunkInfo} (h : bpkg.Perfect k hs cs) {i : Nat} (hi : i < cs.length) :
    expected hs cs (2 ^ k + i) = cs[i].hashvalue.take 64 := by
  have hhs := h.hashes_length
  have hle : hs.length ≤ 2 ^ k + i - 1 := by omega
  have hidx : 2 ^ k + i - 1 - hs.length = i := by omega
  rw [expected, listed, List.getD_append_right _ _ _ _ hle, hidx,
    List.getD_eq_getElem _ _ (by rwa [List.length_map]), List.getElem_map]

/-- The tree of such a package, for any computed chunk hashes and in any memory. -/
theorem BpkgObj.Perfect.built {bpkg : BpkgObj} {k : Nat} {hs : List Str} {cs : List ChunkInfo}
    (h : bpkg.Perfect k hs cs) {hashes : List Str} (hlen : hashes.length = 2 ^ k) (m : Mem) :
    ∃ m' node, Built k (computed k hashes) (expected hs cs) m m' m.nodes.next node ∧
      Settles (fun fuel => buildTree fuel m bpkg (.ok (some hashes)))
        (.ok (m', { bpkg with tree := some m.nodes.next })) := by
  refine buildTree_built m h.toLists ?_ h.height (Nat.le_of_eq hlen.symm)
    (Nat.le_of_eq h.listed_length.symm)
  rw [h.chunks_length, Nat.log_pow (by omega)]

theorem BpkgObj.Perfect.capacity {bpkg : BpkgObj} {k : Nat} {hs : List Str} {cs : List ChunkInfo}
    (h : bpkg.Perfect k hs cs) : ((2 ^ k : Nat) : Int) ≤ bpkg.nchunks.toInt := by
  rw [h.nchunks, h.chunks_length]

/-- The smallest case: two chunks of one byte each, and the hash of the root. -/
def twoChunks (root c₀ c₁ : Str) : BpkgObj where
  identifier := bytes "ab"
  filename := bytes "two.data"
  size := 2
  nhashes := 1
  hashes := some [root]
  nchunks := 2
  chunks := some [⟨c₀, 0, 1⟩, ⟨c₁, 1, 1⟩]
  tree := none

theorem twoChunks_perfect (root c₀ c₁ : Str) :
    (twoChunks root c₀ c₁).Perfect 1 [root] [⟨c₀, 0, 1⟩, ⟨c₁, 1, 1⟩] where
  hashes := rfl
  chunks := rfl
  nhashes := rfl
  nchunks := rfl
  height := Nat.le_refl 1
  chunks_length := rfl
  hashes_length := rfl

/-! ## Labellings -/

/-- The computed and the expected hash of the node `n` are equal. -/
def Mem.Match (m : Mem) (root : Addr) (n : Nat) : Prop :=
  ∃ h, m.computedAt root n = some h ∧ m.expectedAt root n = some h

/-- Every inner node's hash is that of its left child's hash followed by its right child's. -/
def Consistent (k : Nat) (hashAt : Nat → Option Str) : Prop :=
  ∀ n, IsInner k n → ∃ l r, hashAt (2 * n) = some l ∧ hashAt (2 * n + 1) = some r ∧
    hashAt n = some (Fips180.sha256Hex (l ++ r))

/-- The concatenations hashed for the inner nodes. -/
def concatenations (k : Nat) (hashAt : Nat → Option Str) : Set Str :=
  {x | ∃ n l r, IsInner k n ∧ hashAt (2 * n) = some l ∧ hashAt (2 * n + 1) = some r ∧ x = l ++ r}

theorem concatenations_eq_inputs {k : Nat} {hashAt : Nat → Option Str} {label : Nat → Str}
    (h : ∀ n, IsNode k n → hashAt n = some (label n)) :
    concatenations k hashAt = inputs (· ++ ·) k label := by
  ext x
  constructor
  · rintro ⟨n, l, r, hn, hl, hr, rfl⟩
    rw [h _ hn.left] at hl
    rw [h _ hn.right] at hr
    cases hl
    cases hr
    exact ⟨n, hn, rfl⟩
  · rintro ⟨n, hn, rfl⟩
    exact ⟨n, _, _, hn, h _ hn.left, h _ hn.right, rfl⟩

theorem isInner_one {n : Nat} : IsInner 1 n ↔ n = 1 := by
  unfold IsInner
  omega

/-- A tree of height 1 has a single concatenation. -/
theorem concatenations_one {hashAt : Nat → Option Str} {l r : Str} (hl : hashAt 2 = some l)
    (hr : hashAt 3 = some r) : concatenations 1 hashAt = {l ++ r} := by
  ext x
  constructor
  · rintro ⟨n, l', r', hn, hl', hr', rfl⟩
    obtain rfl := isInner_one.mp hn
    cases hl.symm.trans hl'
    cases hr.symm.trans hr'
    rfl
  · rintro rfl
    exact ⟨1, l, r, isInner_one.mpr rfl, hl, hr, rfl⟩

/-- Hashes of 64 characters fit `combinedhash`. -/
theorem combine_eq_append {x y : Str} (hx : x.length = 64) (hy : y.length = 64) :
    combine x y = x ++ y := by
  rw [combine, List.take_of_length_le (by rw [List.length_append]; omega)]

theorem pairsApart_append : PairsApart (fun x y : Str => x ++ y) fun x => x.length = 64 := by
  intro a b c d ha _ hc _ h
  exact List.append_inj h (ha.trans hc.symm)

section Labellings

variable {k n : Nat} {hs : List Str} {cs : List ChunkInfo} {hashes : List Str}

/-- The computed hashes of a tree over 64-character chunk hashes. -/
theorem computed_length (hlen : 2 ^ k ≤ hashes.length) (h64 : ∀ x ∈ hashes, x.length = 64)
    (hn : IsNode k n) : (computed k hashes n).length = 64 := by
  rcases hn.inner_or_leaf with hin | hleaf
  · rw [computed_labels k hashes n hin]
    exact Fips180.sha256Hex_length _
  · have hpow := Nat.pow_succ 2 k
    have hi : n - 2 ^ k < hashes.length := by have := hleaf.2; omega
    have hx : (hashes[n - 2 ^ k]).length = 64 := h64 _ (List.getElem_mem hi)
    rw [computed_leaf hleaf, leafHash, List.getD_eq_getElem _ _ hi, List.length_take, hx]
    rfl

/-- They are a Merkle labelling. -/
theorem computed_labels_append (hlen : 2 ^ k ≤ hashes.length) (h64 : ∀ x ∈ hashes, x.length = 64) :
    Labels Fips180.sha256Hex (· ++ ·) k (computed k hashes) := by
  intro n hn
  rw [computed_labels k hashes n hn,
    combine_eq_append (computed_length hlen h64 hn.left)
      (computed_length hlen h64 hn.right)]

theorem computed_length_le : (computed k hashes n).length ≤ 64 ∨ ¬ IsNode k n := by
  by_cases hn : IsNode k n
  · apply Or.inl
    rcases hn.inner_or_leaf with hin | hleaf
    · rw [computed_labels k hashes n hin, Fips180.sha256Hex_length]
    · rw [computed_leaf hleaf, leafHash]
      exact List.length_take_le _ _
  · exact Or.inr hn

theorem expected_length_le : (expected hs cs n).length ≤ 64 := List.length_take_le _ _

theorem expected_length (hlen : 2 ^ (k + 1) - 1 ≤ (listed hs cs).length)
    (h64 : ∀ x ∈ listed hs cs, x.length = 64) (hn : IsNode k n) :
    (expected hs cs n).length = 64 := by
  have hi : n - 1 < (listed hs cs).length := by
    have h1 := hn.1
    have h2 := hn.2
    omega
  have hx : ((listed hs cs)[n - 1]).length = 64 := h64 _ (List.getElem_mem hi)
  rw [expected, List.getD_eq_getElem _ _ hi, List.length_take, hx]
  rfl

end Labellings

section Tree

variable {k n root : Nat} {hs : List Str} {cs : List ChunkInfo} {hashes : List Str} {m₀ m : Mem}
  {node : Nat → Nat}

/-- A node matches when the queries find that its hashes agree. -/
theorem Built.match_iff (h : Built k (computed k hashes) (expected hs cs) m₀ m root node)
    (hn : IsNode k n) : m.Match root n ↔ Agree (computed k hashes) (expected hs cs) n := by
  have hc : (computed k hashes n).length ≤ 64 := computed_length_le.resolve_right fun h => h hn
  rw [Agree, List.take_of_length_le expected_length_le, List.take_of_length_le hc, Mem.Match,
    h.computedAt hn, h.expectedAt hn]
  constructor
  · rintro ⟨x, hx, hx'⟩
    rw [Option.some.inj hx, Option.some.inj hx']
  · intro he
    exact ⟨_, rfl, congrArg some he⟩

/-- The expected hashes of a consistent package are a Merkle labelling. -/
theorem Built.expected_labels (h : Built k (computed k hashes) (expected hs cs) m₀ m root node)
    (hcons : Consistent k (m.expectedAt root)) :
    Labels Fips180.sha256Hex (· ++ ·) k (expected hs cs) := by
  intro n hn
  obtain ⟨l, r, hl, hr, hself⟩ := hcons n hn
  rw [h.expectedAt hn.left] at hl
  rw [h.expectedAt hn.right] at hr
  rw [h.expectedAt hn.isNode] at hself
  cases hl
  cases hr
  exact Option.some.inj hself

end Tree

end Btide
