import Mathlib.Algebra.Group.Nat.Defs
import Mathlib.Data.Nat.Log
import Mathlib.Data.List.Basic
import Btide.Base.Loop

/-!
# `Theory.LevelOrder` — perfect binary trees numbered in level order

The nodes of the perfect tree of height `k` are the numbers `1 ≤ n < 2 ^ (k + 1)`: the root is `1`, the
children of `n` are `2 * n` and `2 * n + 1`, the inner nodes lie below `2 ^ k`, and the leaves are
`2 ^ k, 2 ^ k + 1, …` from left to right. Level order is the order of the numbers, which turns the
analysis of a breadth-first traversal into arithmetic: `pops_filter` says that a worklist started at a
node visits, in increasing order, exactly the nodes it ever queues.

`Above v w` is "v is w or an ancestor of w".
-/

namespace Btide
namespace LevelOrder

/-! ## Nodes -/

def IsNode (k n : Nat) : Prop := 1 ≤ n ∧ n < 2 ^ (k + 1)

def IsInner (k n : Nat) : Prop := 1 ≤ n ∧ n < 2 ^ k

def IsLeaf (k n : Nat) : Prop := 2 ^ k ≤ n ∧ n < 2 ^ (k + 1)

instance (k n : Nat) : Decidable (IsNode k n) := inferInstanceAs (Decidable (_ ∧ _))

instance (k n : Nat) : Decidable (IsInner k n) := inferInstanceAs (Decidable (_ ∧ _))

instance (k n : Nat) : Decidable (IsLeaf k n) := inferInstanceAs (Decidable (_ ∧ _))

variable {k n u v w : Nat}

theorem IsInner.isNode (h : IsInner k n) : IsNode k n := by
  have := Nat.pow_succ 2 k
  exact ⟨h.1, by have := h.2; omega⟩

theorem IsLeaf.isNode (h : IsLeaf k n) : IsNode k n :=
  ⟨Nat.le_trans Nat.one_le_two_pow h.1, h.2⟩

theorem IsNode.inner_or_leaf (h : IsNode k n) : IsInner k n ∨ IsLeaf k n := by
  rcases Nat.lt_or_ge n (2 ^ k) with hlt | hge
  · exact Or.inl ⟨h.1, hlt⟩
  · exact Or.inr ⟨hge, h.2⟩

theorem IsInner.not_isLeaf (h : IsInner k n) : ¬ IsLeaf k n := by
  intro hl
  have h₁ := h.2
  have h₂ := hl.1
  omega

/-- Both children of an inner node are nodes. -/
theorem IsInner.child (h : IsInner k n) {b : Nat} (hb : b < 2) : IsNode k (2 * n + b) := by
  have hpow := Nat.pow_succ 2 k
  have h₁ := h.1
  have h₂ := h.2
  exact ⟨by omega, by omega⟩

theorem IsInner.left (h : IsInner k n) : IsNode k (2 * n) := h.child (b := 0) (by omega)

theorem IsInner.right (h : IsInner k n) : IsNode k (2 * n + 1) := h.child (by omega)

theorem isNode_root : IsNode k 1 := ⟨Nat.le_refl 1, Nat.one_lt_two_pow (by omega)⟩

/-! ## Ancestors -/

/-- `v` is `w` or an ancestor of `w`. -/
def Above (v w : Nat) : Prop := 1 ≤ v ∧ ∃ i, w / 2 ^ i = v

theorem above_iff_bounded : Above v w ↔ 1 ≤ v ∧ ∃ i < w + 1, w / 2 ^ i = v := by
  constructor
  · rintro ⟨hv, i, hi⟩
    refine ⟨hv, i, ?_, hi⟩
    by_contra hge
    have hlt : w < 2 ^ i := Nat.lt_trans Nat.lt_two_pow_self (Nat.pow_lt_pow_right (by omega)
      (by omega : w < i))
    rw [Nat.div_eq_of_lt hlt] at hi
    omega
  · rintro ⟨hv, i, _, hi⟩
    exact ⟨hv, i, hi⟩

instance (v w : Nat) : Decidable (Above v w) := decidable_of_iff _ above_iff_bounded.symm

theorem Above.refl (h : 1 ≤ v) : Above v v := ⟨h, 0, by simp⟩

theorem Above.le (h : Above v w) : v ≤ w := by
  obtain ⟨_, i, rfl⟩ := h
  exact Nat.div_le_self w (2 ^ i)

theorem Above.trans (huv : Above u v) (hvw : Above v w) : Above u w := by
  obtain ⟨hu, i, hi⟩ := huv
  obtain ⟨_, j, rfl⟩ := hvw
  exact ⟨hu, j + i, by rw [Nat.pow_add, ← Nat.div_div_eq_div_mul, hi]⟩

theorem Above.antisymm (huv : Above u v) (hvu : Above v u) : u = v :=
  Nat.le_antisymm huv.le hvu.le

/-- Two nodes above a common node are comparable. -/
theorem Above.total (hu : Above u w) (hv : Above v w) : Above u v ∨ Above v u := by
  obtain ⟨hu1, i, rfl⟩ := hu
  obtain ⟨hv1, j, rfl⟩ := hv
  rcases Nat.le_total i j with hij | hji
  · refine Or.inr ⟨hv1, j - i, ?_⟩
    rw [Nat.div_div_eq_div_mul, ← Nat.pow_add, Nat.add_sub_cancel' hij]
  · refine Or.inl ⟨hu1, i - j, ?_⟩
    rw [Nat.div_div_eq_div_mul, ← Nat.pow_add, Nat.add_sub_cancel' hji]

/-- The ancestors of a child are the child itself and the ancestors of its parent. -/
theorem above_child_iff {b : Nat} (hb : b < 2) (hv : 1 ≤ v) :
    Above v (2 * n + b) ↔ v = 2 * n + b ∨ Above v n := by
  have hhalf : (2 * n + b) / 2 = n := by omega
  constructor
  · rintro ⟨_, i, hi⟩
    cases i with
    | zero => exact Or.inl (by simpa using hi.symm)
    | succ i =>
        refine Or.inr ⟨hv, i, ?_⟩
        rw [Nat.pow_succ', ← Nat.div_div_eq_div_mul, hhalf] at hi
        exact hi
  · rintro (rfl | ⟨_, i, hi⟩)
    · exact Above.refl hv
    · refine ⟨hv, i + 1, ?_⟩
      rw [Nat.pow_succ', ← Nat.div_div_eq_div_mul, hhalf, hi]

theorem Above.child {b : Nat} (h : Above v n) (hb : b < 2) : Above v (2 * n + b) :=
  (above_child_iff hb h.1).mpr (Or.inr h)

/-- Everything strictly below `n` is below one of its children. -/
theorem Above.cases_child (h : Above n w) : w = n ∨ Above (2 * n) w ∨ Above (2 * n + 1) w := by
  obtain ⟨hn, i, rfl⟩ := h
  cases i with
  | zero => exact Or.inl (by simp)
  | succ i =>
      have hdiv : w / 2 ^ (i + 1) = w / 2 ^ i / 2 := by
        rw [Nat.pow_succ, Nat.div_div_eq_div_mul]
      rw [hdiv] at hn ⊢
      rcases Nat.mod_two_eq_zero_or_one (w / 2 ^ i) with h0 | h1
      · exact Or.inr (Or.inl ⟨by omega, i, by omega⟩)
      · exact Or.inr (Or.inr ⟨by omega, i, by omega⟩)

/-- The two subtrees of a node are disjoint. -/
theorem not_above_both (hl : Above (2 * n) w) (hr : Above (2 * n + 1) w) : False := by
  have hn : 1 ≤ 2 * n := hl.1
  rcases hl.total hr with h | h
  · rcases (above_child_iff (by omega : (1 : Nat) < 2) hn).mp h with he | ha
    · omega
    · have := ha.le
      omega
  · have := h.le
    omega

/-- A child is not above its parent. -/
theorem not_above_parent {b : Nat} (hn : 1 ≤ n) : ¬ Above (2 * n + b) n := by
  intro h
  have := h.le
  omega

/-- The node `r` places from the left, `i` levels below `n`. -/
theorem above_mul_add {i r : Nat} (hn : 1 ≤ n) (hr : r < 2 ^ i) : Above n (n * 2 ^ i + r) := by
  refine ⟨hn, i, ?_⟩
  rw [Nat.mul_comm, Nat.mul_add_div (Nat.two_pow_pos i), Nat.div_eq_of_lt hr, Nat.add_zero]

theorem above_root (hn : 1 ≤ n) : Above 1 n := by
  induction n using Nat.strong_induction_on with
  | h n ih =>
      by_cases hone : n = 1
      · rw [hone]
        exact Above.refl (Nat.le_refl 1)
      · have h := (ih (n / 2) (by omega) (by omega)).child (b := n % 2) (by omega)
        rwa [Nat.div_add_mod] at h

/-! ## Depth and leaves -/

theorem IsNode.log_le (h : IsNode k n) : Nat.log 2 n ≤ k :=
  Nat.lt_succ_iff.mp (Nat.log_lt_of_lt_pow (by have := h.1; omega) h.2)

/-- `k - log 2 n` levels below a node are the leaves. -/
theorem isLeaf_mul_add {r : Nat} (h : IsNode k n) (hr : r < 2 ^ (k - Nat.log 2 n)) :
    IsLeaf k (n * 2 ^ (k - Nat.log 2 n) + r) := by
  have hn : n ≠ 0 := by have := h.1; omega
  have hlow : 2 ^ Nat.log 2 n ≤ n := Nat.pow_log_le_self 2 hn
  have hhigh : n + 1 ≤ 2 ^ (Nat.log 2 n + 1) := Nat.lt_pow_succ_log_self (by omega) n
  have hk : Nat.log 2 n + (k - Nat.log 2 n) = k := by have := h.log_le; omega
  have hk' : Nat.log 2 n + 1 + (k - Nat.log 2 n) = k + 1 := by omega
  refine ⟨?_, ?_⟩
  · calc 2 ^ k = 2 ^ Nat.log 2 n * 2 ^ (k - Nat.log 2 n) := by rw [← Nat.pow_add, hk]
      _ ≤ n * 2 ^ (k - Nat.log 2 n) := Nat.mul_le_mul_right _ hlow
      _ ≤ n * 2 ^ (k - Nat.log 2 n) + r := Nat.le_add_right _ _
  · calc n * 2 ^ (k - Nat.log 2 n) + r < n * 2 ^ (k - Nat.log 2 n) + 2 ^ (k - Nat.log 2 n) :=
          Nat.add_lt_add_left hr _
      _ = (n + 1) * 2 ^ (k - Nat.log 2 n) := by rw [Nat.add_mul, Nat.one_mul]
      _ ≤ 2 ^ (Nat.log 2 n + 1) * 2 ^ (k - Nat.log 2 n) := Nat.mul_le_mul_right _ hhigh
      _ = 2 ^ (k + 1) := by rw [← Nat.pow_add, hk']

/-- The leftmost leaf below a node. -/
def firstLeaf (k n : Nat) : Nat := n * 2 ^ (k - Nat.log 2 n)

theorem firstLeaf_isLeaf (h : IsNode k n) : IsLeaf k (firstLeaf k n) := by
  have := isLeaf_mul_add (r := 0) h (Nat.two_pow_pos _)
  simpa [firstLeaf] using this

theorem above_firstLeaf (h : IsNode k n) : Above n (firstLeaf k n) := by
  have := above_mul_add (r := 0) (i := k - Nat.log 2 n) h.1 (Nat.two_pow_pos _)
  simpa [firstLeaf] using this

/-- The leaves below `v`, from left to right. -/
def leavesUnder (k v : Nat) : List Nat := (List.range' (2 ^ k) (2 ^ k)).filter fun n => Above v n

theorem mem_leavesUnder : n ∈ leavesUnder k v ↔ IsLeaf k n ∧ Above v n := by
  have hpow := Nat.pow_succ 2 k
  simp only [leavesUnder, List.mem_filter, List.mem_range'_1, decide_eq_true_eq, IsLeaf]
  constructor
  · rintro ⟨⟨h₁, h₂⟩, h₃⟩
    exact ⟨⟨h₁, by omega⟩, h₃⟩
  · rintro ⟨⟨h₁, h₂⟩, h₃⟩
    exact ⟨⟨h₁, by omega⟩, h₃⟩

/-- A leaf is `k - log 2 v` levels below every node `v` above it. -/
theorem above_leaf_iff (hn : IsLeaf k n) (hv : 1 ≤ v) :
    Above v n ↔ n / 2 ^ (k - Nat.log 2 v) = v := by
  constructor
  · rintro ⟨_, j, hj⟩
    have hpos := Nat.two_pow_pos j
    have hdm := Nat.div_add_mod n (2 ^ j)
    have hmod := Nat.mod_lt n hpos
    rw [hj, Nat.mul_comm] at hdm
    have hlow : 2 ^ Nat.log 2 v ≤ v := Nat.pow_log_le_self 2 (by omega)
    have hhigh : v + 1 ≤ 2 ^ (Nat.log 2 v + 1) := Nat.lt_pow_succ_log_self (by omega) v
    have hle : Nat.log 2 v + j < k + 1 := by
      apply (Nat.pow_lt_pow_iff_right (by omega : 1 < 2)).mp
      calc 2 ^ (Nat.log 2 v + j) = 2 ^ Nat.log 2 v * 2 ^ j := Nat.pow_add 2 _ _
        _ ≤ v * 2 ^ j := Nat.mul_le_mul_right _ hlow
        _ ≤ n := by omega
        _ < 2 ^ (k + 1) := hn.2
    have hge : k < Nat.log 2 v + 1 + j := by
      apply (Nat.pow_lt_pow_iff_right (by omega : 1 < 2)).mp
      calc 2 ^ k ≤ n := hn.1
        _ < (v + 1) * 2 ^ j := by rw [Nat.add_mul]; omega
        _ ≤ 2 ^ (Nat.log 2 v + 1) * 2 ^ j := Nat.mul_le_mul_right _ hhigh
        _ = 2 ^ (Nat.log 2 v + 1 + j) := (Nat.pow_add 2 _ _).symm
    have hj' : k - Nat.log 2 v = j := by omega
    rwa [hj']
  · intro h
    exact ⟨hv, _, h⟩

/-- Two increasing lists with the same members are equal. -/
theorem eq_of_mem_iff {xs ys : List Nat} (hx : xs.Pairwise (· < ·)) (hy : ys.Pairwise (· < ·))
    (h : ∀ n, n ∈ xs ↔ n ∈ ys) : xs = ys := by
  have hperm := (List.perm_ext_iff_of_nodup (hx.imp fun h => Nat.ne_of_lt h)
    (hy.imp fun h => Nat.ne_of_lt h)).mpr h
  exact hperm.eq_of_pairwise (fun a b _ _ h₁ h₂ => absurd h₁ (Nat.lt_asymm h₂)) hx hy

theorem leavesUnder_sorted : (leavesUnder k v).Pairwise (· < ·) :=
  List.Pairwise.filter _ List.pairwise_lt_range'

/-- The leaves below a node are consecutive. -/
theorem leavesUnder_eq_range' (hv : IsNode k v) :
    leavesUnder k v = List.range' (firstLeaf k v) (2 ^ (k - Nat.log 2 v)) := by
  refine eq_of_mem_iff leavesUnder_sorted List.pairwise_lt_range' fun n => ?_
  rw [mem_leavesUnder, List.mem_range'_1, firstLeaf]
  have hpos := Nat.two_pow_pos (k - Nat.log 2 v)
  constructor
  · rintro ⟨hleaf, ha⟩
    have hdiv := (above_leaf_iff hleaf hv.1).mp ha
    have hdm := Nat.div_add_mod n (2 ^ (k - Nat.log 2 v))
    have hmod := Nat.mod_lt n hpos
    rw [hdiv, Nat.mul_comm] at hdm
    exact ⟨by omega, by omega⟩
  · rintro ⟨hlo, hhi⟩
    obtain ⟨r, rfl⟩ := Nat.exists_eq_add_of_le hlo
    have hr : r < 2 ^ (k - Nat.log 2 v) := by omega
    exact ⟨isLeaf_mul_add hv hr, above_mul_add hv.1 hr⟩

/-! ## Traversals -/

/-- What a traversal appends after visiting `n`: the children of an inner node that it expands. -/
def kids (k : Nat) (expands : Nat → Prop) [DecidablePred expands] (n : Nat) : List Nat :=
  if n < 2 ^ k ∧ expands n then [2 * n, 2 * n + 1] else []

theorem kids_inner {expands : Nat → Prop} [DecidablePred expands] (h : IsInner k n) (he : expands n) :
    kids k expands n = [2 * n, 2 * n + 1] := if_pos ⟨h.2, he⟩

theorem kids_leaf {expands : Nat → Prop} [DecidablePred expands] (h : IsLeaf k n) :
    kids k expands n = [] := if_neg fun hlt => Nat.not_lt.mpr h.1 hlt.1

theorem kids_stop {expands : Nat → Prop} [DecidablePred expands] (he : ¬ expands n) :
    kids k expands n = [] := if_neg fun h => he h.2

section Traversal

variable {expands queued : Nat → Prop} [DecidablePred expands] [DecidablePred queued] {s : Nat}

/-- The queue when every node below `n` has been dealt with: the queued ones among the nodes from `n` to
    the last child generated so far. -/
def pending (k : Nat) (queued : Nat → Prop) [DecidablePred queued] (n : Nat) : List Nat :=
  (List.range' n (min (2 * n) (2 ^ (k + 1)) - n)).filter fun m => queued m

/-- Dealing with `n` takes the pending queue from `n` to `n + 1`. -/
theorem pending_succ (hn1 : 1 ≤ n) (hn : n < 2 ^ (k + 1))
    (hq : ∀ b < 2, n < 2 ^ k → (queued (2 * n + b) ↔ queued n ∧ expands n)) :
    (queued n → ∃ q, pending k queued n = n :: q ∧
      pending k queued (n + 1) = q ++ kids k expands n) ∧
    (¬ queued n → pending k queued (n + 1) = pending k queued n) := by
  have hpow := Nat.pow_succ 2 k
  obtain ⟨len, hlen⟩ : ∃ len, min (2 * n) (2 ^ (k + 1)) - n = len + 1 :=
    ⟨min (2 * n) (2 ^ (k + 1)) - n - 1, by omega⟩
  have hhead : pending k queued n
      = (n :: List.range' (n + 1) len).filter fun m => queued m := by
    rw [pending, hlen, List.range'_succ]
  -- the positions past the old queue are the two children, or nothing at the leaves
  have hnext : pending k queued (n + 1)
      = ((List.range' (n + 1) len).filter fun m => queued m)
        ++ (if n < 2 ^ k then [2 * n, 2 * n + 1] else []).filter fun m => queued m := by
    rw [pending]
    by_cases hin : n < 2 ^ k
    · have hmin : min (2 * (n + 1)) (2 ^ (k + 1)) - (n + 1) = len + 2 := by omega
      have hend : n + 1 + len = 2 * n := by omega
      rw [hmin, ← List.range'_append_1, List.filter_append, if_pos hin, hend]
      rfl
    · have hmin : min (2 * (n + 1)) (2 ^ (k + 1)) - (n + 1) = len := by omega
      rw [hmin, if_neg hin, List.filter_nil, List.append_nil]
  constructor
  · intro hqn
    refine ⟨(List.range' (n + 1) len).filter fun m => queued m, ?_, ?_⟩
    · rw [hhead, List.filter_cons_of_pos (by simpa using hqn)]
    · rw [hnext, kids]
      by_cases hin : n < 2 ^ k
      · have h0 : queued (2 * n) ↔ expands n := by simpa [hqn] using hq 0 (by omega) hin
        have h1 : queued (2 * n + 1) ↔ expands n := by simpa [hqn] using hq 1 (by omega) hin
        by_cases hex : expands n
        · simp [hin, hex, h0, h1]
        · simp [hin, hex, h0, h1]
      · simp [hin]
  · intro hqn
    rw [hnext, hhead, List.filter_cons_of_neg (by simpa using hqn)]
    by_cases hin : n < 2 ^ k
    · have h0 : ¬ queued (2 * n) := by simpa [hqn] using hq 0 (by omega) hin
      have h1 : ¬ queued (2 * n + 1) := by simpa [hqn] using hq 1 (by omega) hin
      simp [hin, h0, h1]
    · simp [hin]

/-- From any point on, the traversal visits the queued nodes in increasing order. -/
theorem pops_pending (hs : 1 ≤ s)
    (hq : ∀ n, s ≤ n → n < 2 ^ k → ∀ b < 2, (queued (2 * n + b) ↔ queued n ∧ expands n)) :
    ∀ d n, s ≤ n → n + d = 2 ^ (k + 1) →
      Pops (kids k expands) (pending k queued n)
        ((List.range' n d).filter fun m => queued m) [] := by
  intro d
  induction d with
  | zero =>
      intro n _ hn
      have hnil : pending k queued n = [] := by
        rw [pending]
        have hmin : min (2 * n) (2 ^ (k + 1)) - n = 0 := by omega
        rw [hmin]
        rfl
      rw [hnil]
      exact Pops.nil
  | succ d ih =>
      intro n hsn hn
      have hrest := ih (n + 1) (by omega) (by omega)
      obtain ⟨hvisit, hskip⟩ := pending_succ (k := k) (n := n) (by omega) (by omega)
        (fun b hb hin => hq n hsn hin b hb)
      rw [List.range'_succ]
      by_cases hqn : queued n
      · obtain ⟨q, hcur, hnext⟩ := hvisit hqn
        rw [hcur, List.filter_cons_of_pos (by simpa using hqn)]
        exact Pops.cons (hnext ▸ hrest)
      · rw [List.filter_cons_of_neg (by simpa using hqn), ← hskip hqn]
        exact hrest

/-- **A traversal visits in level order.** Started at the node `s`, a worklist that expands the nodes
    satisfying `expands` visits exactly the nodes satisfying `queued`, in increasing order, if `s` is the
    first of them and a child is queued when its parent is queued and expanded. -/
theorem pops_filter (hs : IsNode k s) (hqs : queued s) (hfirst : ∀ n, s < n → n < 2 * s → ¬ queued n)
    (hq : ∀ n, s ≤ n → n < 2 ^ k → ∀ b < 2, (queued (2 * n + b) ↔ queued n ∧ expands n)) :
    Pops (kids k expands) [s]
      ((List.range' s (2 ^ (k + 1) - s)).filter fun m => queued m) [] := by
  have hs1 := hs.1
  have hs2 := hs.2
  have hstart : pending k queued s = [s] := by
    obtain ⟨len, hlen⟩ : ∃ len, min (2 * s) (2 ^ (k + 1)) - s = len + 1 :=
      ⟨min (2 * s) (2 ^ (k + 1)) - s - 1, by omega⟩
    rw [pending, hlen, List.range'_succ, List.filter_cons_of_pos (by simpa using hqs)]
    have hnone : (List.range' (s + 1) len).filter (fun m => decide (queued m)) = [] := by
      refine List.filter_eq_nil_iff.mpr fun m hm => ?_
      rw [List.mem_range'_1] at hm
      simpa using hfirst m (by omega) (by omega)
    rw [hnone]
  have hrun := pops_pending hs1 hq (2 ^ (k + 1) - s) s (Nat.le_refl s) (by omega)
  rwa [hstart] at hrun

/-- The full traversal visits every node. -/
theorem pops_all (k : Nat) :
    Pops (kids k fun _ => True) [1] (List.range' 1 (2 ^ (k + 1) - 1)) [] := by
  have h := @pops_filter k (fun _ => True) (fun _ => True) _ _ 1 isNode_root trivial
    (fun n h₁ h₂ => by omega) (fun n _ _ b _ => by simp)
  simpa using h

/-- The traversal started at `v` visits what lies below `v`. -/
theorem pops_under (hv : IsNode k v) :
    Pops (kids k fun _ => True) [v]
      ((List.range' v (2 ^ (k + 1) - v)).filter fun m => Above v m) [] := by
  have hv1 := hv.1
  apply pops_filter hv (Above.refl hv1)
  · intro n hlo hhi
    rintro ⟨_, i, hi⟩
    cases i with
    | zero =>
        rw [Nat.pow_zero, Nat.div_one] at hi
        omega
    | succ i =>
        have hle : n / 2 ^ (i + 1) ≤ n / 2 := by
          rw [Nat.pow_succ', ← Nat.div_div_eq_div_mul]
          exact Nat.div_le_self _ _
        omega
  · intro n hn _ b hb
    rw [above_child_iff hb hv1]
    constructor
    · rintro (h | h)
      · omega
      · exact ⟨h, trivial⟩
    · rintro ⟨h, _⟩
      exact Or.inr h

end Traversal
end LevelOrder
end Btide
