import Mathlib.Data.Set.Function
import Btide.Theory.LevelOrder

/-!
# `Theory.Merkle` — Merkle labellings of a perfect tree

A labelling `l` of the nodes is a Merkle labelling (`Labels`) when every inner label is the hash of the
pair of its children's labels. The hash is arbitrary; that it has no collision is assumed only among the
pairs that are actually hashed (`inputs`), as injectivity on that set.

The one fact everything rests on is `Labels.eq_below`: without collisions, two equal labels at nodes `u`
and `v`, of one labelling or of two, have equal labels at corresponding nodes below them. At the root it
is the binding property of the tree; used upwards it says that a label determines, and is determined by,
the leaves below it.
-/

namespace Btide
namespace LevelOrder

variable {α β : Type*} {hash : β → α} {pair : α → α → β} {k n u v : Nat}

/-- Every inner label is the hash of its children's labels. -/
def Labels (hash : β → α) (pair : α → α → β) (k : Nat) (l : Nat → α) : Prop :=
  ∀ n, IsInner k n → l n = hash (pair (l (2 * n)) (l (2 * n + 1)))

/-- The pairs hashed for the inner nodes. -/
def inputs (pair : α → α → β) (k : Nat) (l : Nat → α) : Set β :=
  {x | ∃ n, IsInner k n ∧ x = pair (l (2 * n)) (l (2 * n + 1))}

theorem mem_inputs {l : Nat → α} (h : IsInner k n) :
    pair (l (2 * n)) (l (2 * n + 1)) ∈ inputs pair k l := ⟨n, h, rfl⟩

/-! ## The labelling of a sequence of leaves -/

/-- The label of the node `n`, `j` levels above the leaves. -/
def merkle (hash : β → α) (pair : α → α → β) (leaf : Nat → α) : Nat → Nat → α
  | 0, n => leaf n
  | j + 1, n => hash (pair (merkle hash pair leaf j (2 * n)) (merkle hash pair leaf j (2 * n + 1)))

/-- The label of the node `n` of the tree of height `k`. -/
def label (hash : β → α) (pair : α → α → β) (k : Nat) (leaf : Nat → α) (n : Nat) : α :=
  merkle hash pair leaf (k - Nat.log 2 n) n

theorem IsLeaf.log_eq (h : IsLeaf k n) : Nat.log 2 n = k :=
  Nat.log_eq_of_pow_le_of_lt_pow h.1 h.2

theorem log_child {b : Nat} (hb : b < 2) (hn : 1 ≤ n) : Nat.log 2 (2 * n + b) = Nat.log 2 n + 1 := by
  have hhalf : (2 * n + b) / 2 = n := by omega
  rw [Nat.log_of_one_lt_of_le (by omega) (by omega), hhalf]

theorem IsInner.log_lt (h : IsInner k n) : Nat.log 2 n < k :=
  Nat.log_lt_of_lt_pow (by have := h.1; omega) h.2

theorem label_leaf {leaf : Nat → α} (h : IsLeaf k n) : label hash pair k leaf n = leaf n := by
  rw [label, h.log_eq, Nat.sub_self, merkle]

theorem labels_label (hash : β → α) (pair : α → α → β) (k : Nat) (leaf : Nat → α) :
    Labels hash pair k (label hash pair k leaf) := by
  intro n h
  have hlt := h.log_lt
  have hl := log_child (n := n) (b := 0) (by omega) h.1
  have hr := log_child (n := n) (b := 1) (by omega) h.1
  have hj : k - Nat.log 2 n = (k - (Nat.log 2 n + 1)) + 1 := by omega
  rw [Nat.add_zero] at hl
  rw [label, label, label, hl, hr, hj, merkle]

/-! ## Labels determine what lies below them -/

/-- Pairs of labels of the kind `P` can be taken apart again. -/
def PairsApart (pair : α → α → β) (P : α → Prop) : Prop :=
  ∀ a b c d, P a → P b → P c → P d → pair a b = pair c d → a = c ∧ b = d

variable {P : α → Prop} {l₁ l₂ : Nat → α}

/-- One level: equal labels at two inner nodes come from equal children. -/
theorem Labels.eq_children (h₁ : Labels hash pair k l₁) (h₂ : Labels hash pair k l₂)
    (hpair : PairsApart pair P) (hP₁ : ∀ n, IsNode k n → P (l₁ n)) (hP₂ : ∀ n, IsNode k n → P (l₂ n))
    (hinj : Set.InjOn hash (inputs pair k l₁ ∪ inputs pair k l₂))
    (hu : IsInner k u) (hv : IsInner k v) (he : l₁ u = l₂ v) {b : Nat} (hb : b < 2) :
    l₁ (2 * u + b) = l₂ (2 * v + b) := by
  have hx := hinj (Or.inl (mem_inputs hu)) (Or.inr (mem_inputs hv)) (by rw [← h₁ u hu, ← h₂ v hv, he])
  have hsplit := hpair _ _ _ _ (hP₁ _ hu.left) (hP₁ _ hu.right)
    (hP₂ _ hv.left) (hP₂ _ hv.right) hx
  obtain rfl | rfl : b = 0 ∨ b = 1 := by omega
  · exact hsplit.1
  · exact hsplit.2

/-- A node with a node of the tree `i + 1` levels below it is inner. -/
theorem isInner_of_below {i r : Nat} (hu : 1 ≤ u) (h : u * 2 ^ (i + 1) + r < 2 ^ (k + 1)) :
    IsInner k u := by
  refine ⟨hu, ?_⟩
  have h2 : 2 * u ≤ u * 2 ^ (i + 1) := by
    rw [Nat.pow_succ, ← Nat.mul_assoc, Nat.mul_comm _ 2]
    exact Nat.mul_le_mul_left 2 (Nat.le_mul_of_pos_right u (Nat.two_pow_pos i))
  have hpow := Nat.pow_succ 2 k
  omega

/-- **Equal labels have equal labels below them**, as far down as both trees go. -/
theorem Labels.eq_below (h₁ : Labels hash pair k l₁) (h₂ : Labels hash pair k l₂)
    (hpair : PairsApart pair P) (hP₁ : ∀ n, IsNode k n → P (l₁ n)) (hP₂ : ∀ n, IsNode k n → P (l₂ n))
    (hinj : Set.InjOn hash (inputs pair k l₁ ∪ inputs pair k l₂)) (i : Nat) :
    ∀ u v r, 1 ≤ u → 1 ≤ v → r < 2 ^ i → u * 2 ^ i + r < 2 ^ (k + 1) → v * 2 ^ i + r < 2 ^ (k + 1) →
      l₁ u = l₂ v → l₁ (u * 2 ^ i + r) = l₂ (v * 2 ^ i + r) := by
  induction i with
  | zero =>
      intro u v r _ _ hr _ _ he
      obtain rfl : r = 0 := by omega
      simpa using he
  | succ i ih =>
      intro u v r hu hv hr hur hvr he
      -- the path from `u` starts with the leading bit `b` of `r`
      have hpos := Nat.two_pow_pos i
      have hb : r / 2 ^ i < 2 := by
        rw [Nat.div_lt_iff_lt_mul hpos, ← Nat.pow_succ']
        exact hr
      have hstep (w : Nat) : w * 2 ^ (i + 1) + r = (2 * w + r / 2 ^ i) * 2 ^ i + r % 2 ^ i := by
        have hdm := Nat.div_add_mod r (2 ^ i)
        rw [Nat.pow_succ', ← Nat.mul_assoc, Nat.mul_comm w 2, Nat.add_mul, Nat.add_assoc,
          Nat.mul_comm (r / 2 ^ i), hdm]
      have hone (w : Nat) (hw : 1 ≤ w) : 1 ≤ 2 * w + r / 2 ^ i :=
        Nat.le_add_right_of_le (by omega)
      have hchild := h₁.eq_children h₂ hpair hP₁ hP₂ hinj (isInner_of_below hu hur)
        (isInner_of_below hv hvr) he hb
      rw [hstep u] at hur ⊢
      rw [hstep v] at hvr ⊢
      exact ih _ _ _ (hone u hu) (hone v hv) (Nat.mod_lt _ hpos) hur hvr hchild

/-- **Binding.** Equal root labels come from equal leaves. -/
theorem Labels.eq_leaves (h₁ : Labels hash pair k l₁) (h₂ : Labels hash pair k l₂)
    (hpair : PairsApart pair P) (hP₁ : ∀ n, IsNode k n → P (l₁ n)) (hP₂ : ∀ n, IsNode k n → P (l₂ n))
    (hinj : Set.InjOn hash (inputs pair k l₁ ∪ inputs pair k l₂)) (he : l₁ 1 = l₂ 1)
    (hn : IsLeaf k n) : l₁ n = l₂ n := by
  have hpow := Nat.pow_succ 2 k
  have h₁n := hn.1
  have h₂n := hn.2
  have hrow : 1 * 2 ^ k + (n - 2 ^ k) = n := by omega
  have h := h₁.eq_below h₂ hpair hP₁ hP₂ hinj k 1 1 (n - 2 ^ k) (Nat.le_refl 1) (Nat.le_refl 1)
    (by omega) (by omega) (by omega) he
  rwa [hrow] at h

/-- Agreement of two labellings is decided one level at a time. -/
theorem Labels.eq_iff_children (h₁ : Labels hash pair k l₁) (h₂ : Labels hash pair k l₂)
    (hpair : PairsApart pair P) (hP₁ : ∀ n, IsNode k n → P (l₁ n)) (hP₂ : ∀ n, IsNode k n → P (l₂ n))
    (hinj : Set.InjOn hash (inputs pair k l₁ ∪ inputs pair k l₂)) (hn : IsInner k n) :
    l₁ n = l₂ n ↔ l₁ (2 * n) = l₂ (2 * n) ∧ l₁ (2 * n + 1) = l₂ (2 * n + 1) := by
  constructor
  · intro he
    exact ⟨h₁.eq_children h₂ hpair hP₁ hP₂ hinj hn hn he (by omega : 0 < 2),
      h₁.eq_children h₂ hpair hP₁ hP₂ hinj hn hn he (by omega : 1 < 2)⟩
  · rintro ⟨hl, hr⟩
    rw [h₁ n hn, h₂ n hn, hl, hr]

end LevelOrder
end Btide
