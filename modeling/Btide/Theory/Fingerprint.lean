import Btide.Theory.Merkle
import Btide.Theory.Topmost

/-!
# `Theory.Fingerprint` — a Merkle tree over blocks of data

The leaves of a perfect tree carry the hashes of blocks, and the inner nodes those of the pairs below
them (`Fingerprint`). Two such trees are compared node by node. If no two of the strings hashed for either
of them collide, the labels of a node are equal just if the blocks below it are (`Fingerprint.eq_iff`): a
label is the fingerprint of a range of blocks.
-/

namespace Btide
namespace LevelOrder

variable {α β : Type*} {hash : β → α} {pair : α → α → β} {k v : Nat}

/-- `l` is the Merkle labelling of the tree over the blocks. -/
structure Fingerprint (hash : β → α) (pair : α → α → β) (k : Nat) (block : Nat → β) (l : Nat → α) :
    Prop where
  inner : Labels hash pair k l
  leaf : ∀ n, IsLeaf k n → l n = hash (block n)

/-- What is hashed for the labels. -/
def hashed (pair : α → α → β) (k : Nat) (block : Nat → β) (l : Nat → α) : Set β :=
  inputs pair k l ∪ {x | ∃ n, IsLeaf k n ∧ x = block n}

/-- The blocks below `v` are the same. -/
def Intact (k : Nat) (block₁ block₂ : Nat → β) (v : Nat) : Prop :=
  ∀ n ∈ leavesUnder k v, block₁ n = block₂ n

instance [DecidableEq β] (k : Nat) (block₁ block₂ : Nat → β) : DecidablePred (Intact k block₁ block₂) :=
  fun _ => inferInstanceAs (Decidable (∀ n ∈ _, _))

theorem mem_hashed {block : Nat → β} {l : Nat → α} {n : Nat} (h : IsLeaf k n) :
    block n ∈ hashed pair k block l := Or.inr ⟨n, h, rfl⟩

section Intact

variable {block₁ block₂ : Nat → β}

theorem intact_iff : Intact k block₁ block₂ v ↔
    ∀ n, IsLeaf k n → Above v n → block₁ n = block₂ n := by
  constructor
  · intro h n hn ha
    exact h n (mem_leavesUnder.mpr ⟨hn, ha⟩)
  · intro h n hn
    obtain ⟨hleaf, ha⟩ := mem_leavesUnder.mp hn
    exact h n hleaf ha

/-- No leaf is below another. -/
theorem IsLeaf.eq_of_above {n : Nat} (hv : IsLeaf k v) (hn : IsLeaf k n) (h : Above v n) : v = n := by
  have hpow := Nat.pow_succ 2 k
  have hlo := hv.1
  have hhi := hn.2
  rcases h.cases_child with he | hleft | hright
  · exact he.symm
  · have hle := hleft.le
    omega
  · have hle := hright.le
    omega

/-- Below a leaf there is only its own block. -/
theorem intact_leaf (hv : IsLeaf k v) : Intact k block₁ block₂ v ↔ block₁ v = block₂ v := by
  rw [intact_iff]
  constructor
  · intro h
    exact h v hv (Above.refl hv.isNode.1)
  · intro h n hn ha
    obtain rfl := hv.eq_of_above hn ha
    exact h

/-- Below the root there are all blocks. -/
theorem intact_root : Intact k block₁ block₂ 1 ↔ ∀ n, IsLeaf k n → block₁ n = block₂ n := by
  rw [intact_iff]
  constructor
  · intro h n hn
    exact h n hn (above_root hn.isNode.1)
  · intro h n hn _
    exact h n hn

/-- The nodes over unchanged blocks are a hereditary marking. -/
theorem intact_hereditary : Hereditary k (Intact k block₁ block₂) := by
  intro v _
  rw [intact_iff]
  constructor
  · intro h n hn ha
    exact (intact_leaf hn).mpr (h n hn ha)
  · intro h n hn ha
    exact (intact_leaf hn).mp (h n hn ha)

end Intact

section Compare

variable {P : α → Prop} {block₁ block₂ : Nat → β} {l₁ l₂ : Nat → α}

/-- **Equal labels are equal blocks.** -/
theorem Fingerprint.eq_iff (h₁ : Fingerprint hash pair k block₁ l₁)
    (h₂ : Fingerprint hash pair k block₂ l₂) (hpair : PairsApart pair P)
    (hP₁ : ∀ n, IsNode k n → P (l₁ n)) (hP₂ : ∀ n, IsNode k n → P (l₂ n))
    (hinj : Set.InjOn hash (hashed pair k block₁ l₁ ∪ hashed pair k block₂ l₂)) (hv : IsNode k v) :
    l₁ v = l₂ v ↔ Intact k block₁ block₂ v := by
  have hinner : Set.InjOn hash (inputs pair k l₁ ∪ inputs pair k l₂) := by
    apply hinj.mono
    exact Set.union_subset_union Set.subset_union_left Set.subset_union_left
  have hher : Hereditary k fun n => l₁ n = l₂ n :=
    hereditary_of_children fun n hn => h₁.inner.eq_iff_children h₂.inner hpair hP₁ hP₂ hinner hn
  -- at the leaves the two hashes are compared
  have hleaf : ∀ n, IsLeaf k n → (l₁ n = l₂ n ↔ block₁ n = block₂ n) := by
    intro n hn
    rw [h₁.leaf n hn, h₂.leaf n hn]
    constructor
    · intro he
      exact hinj (Or.inl (mem_hashed hn)) (Or.inr (mem_hashed hn)) he
    · intro he
      rw [he]
  rw [intact_iff]
  constructor
  · intro h n hn ha
    exact (hleaf n hn).mp ((hher v hv).mp h n hn ha)
  · intro h
    exact (hher v hv).mpr fun n hn ha => (hleaf n hn).mpr (h n hn ha)

end Compare

/-- The topmost nodes depend on the marks of the tree's nodes only. -/
theorem topmost_congr {M N : Nat → Prop} [DecidablePred M] [DecidablePred N]
    (h : ∀ n, IsNode k n → (M n ↔ N n)) : topmost k M = topmost k N := by
  unfold topmost
  refine List.filter_congr fun n hn => decide_eq_decide.mpr ?_
  obtain ⟨hlo, hhi⟩ := List.mem_range'_1.mp hn
  have hpos := Nat.two_pow_pos (k + 1)
  have hnode : IsNode k n := ⟨hlo, by omega⟩
  have hclear : Clear M n ↔ Clear N n := by
    refine forall_congr' fun u => forall_congr' fun hu => ?_
    rw [h u ⟨hu.1, Nat.lt_of_le_of_lt hu.le hnode.2⟩]
  exact and_congr (h n hnode) hclear

end LevelOrder
end Btide
